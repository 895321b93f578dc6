import EcmaModules.Proofs.Outline
import EcmaModules.Proofs.Run

/-!
# Changes aside from evaluation

Most of what happens to a store is nothing to evaluation: bodies print, throw, make namespaces, set
variables, make promises and settle them, and the graph is loaded and linked. Such a change keeps
the outline of the store, and it makes no reaction by which evaluation goes on.

Bodies and reading also keep the status of modules, what a request stands for and how far synthetic
modules have come. Linking changes the status, and loading the rest, so that is a parameter.

What is made in the course of such a change is namespaces and environments. No namespace is made for a
module that has one already, and an environment binds whatever the module imports.
-/

namespace EcmaModules

/-- How far a synthetic module has come: the steps that it has still, and how they ended. -/
def Store.progress (s : Store) (m : ModuleId) : Option (Option (List Step) × Option Completion) :=
  (s.synthetic? m).map fun r ↦ (r.steps, r.completion)

/-- What the text of a module says. -/
def SourceText.script (r : SourceText) : Entries × List Step × List Step :=
  (r.entries, r.body, r.setup)

/-- What the text of a module with source text says. -/
def Store.script? (s : Store) (m : ModuleId) : Option (Entries × List Step × List Step) :=
  (s.source? m).map (·.script)

/-- The modules that were loaded for the requests of a module with source text. -/
def Store.loaded? (s : Store) (m : ModuleId) : Option (List LoadedModule) :=
  (s.source? m).map (·.loaded)

/-- The point at which a walk came to the module, and the earliest one that it is known to lead back
to. -/
def SourceText.points (r : SourceText) : Nat × Nat := (r.dfsIndex, r.dfsAncestorIndex)

/-- The points that walks have noted in a module with source text. -/
def Store.points? (s : Store) (m : ModuleId) : Option (Nat × Nat) :=
  (s.source? m).map (·.points)

/-- The namespaces of a module, and the exports of a synthetic one. -/
def Module.shelf (r : Module) : Option NamespaceId × Option NamespaceId × Option (List String) :=
  (r.namespaceId, r.deferredId,
    match r.content with
    | .sourceText _ => none
    | .synthetic t => some t.exportNames)

/-- No namespaces are made, and synthetic modules export the same. -/
structure Store.Shelved (s s' : Store) : Prop where
  namespaces : s'.namespaces = s.namespaces
  shelf : ∀ m, (s'.module? m).map (·.shelf) = (s.module? m).map (·.shelf)

/-- Namespaces are made one after the other, while modules have the same texts and nothing is loaded.
None is made for a module and a phase that have one. -/
inductive Store.Furnishes : Store → Store → Prop where
  | keep {s s' : Store} : s.Shelved s' → (∀ m, s'.loaded? m = s.loaded? m) →
      (∀ m, s'.script? m = s.script? m) → Furnishes s s'
  | make (s : Store) (m : ModuleId) (phase : Phase) :
      s.madeNamespace? m phase = none → Furnishes s (s.makeNamespace m phase).2
  | trans {s s' s'' : Store} : Furnishes s s' → Furnishes s' s'' → Furnishes s s''

/-- The environment of a module with source text. -/
def Store.environment? (s : Store) (m : ModuleId) : Option (List (String × ImportBinding)) :=
  (s.source? m).bind (·.environment)

/-- The environment of the module binds each name that is imported from a module that was loaded. -/
def Store.Bound (s : Store) (m : ModuleId) : Prop :=
  ∃ env, s.environment? m = some env ∧ ∀ i ∈ (s.entries m).imports,
    (s.imported? m i.request).isSome → (env.lookup i.localName).isSome

/-- The import that a name of an environment stands for is the latest one of those from modules that were
loaded. -/
def Store.latestImport? (s : Store) (m : ModuleId) (es : Entries) (name : String) : Option ImportEntry :=
  es.imports.reverse.find? fun i ↦ i.localName == name && (s.imported? m i.request).isSome

/-- The import was bound so, and nothing but namespaces has been made since. -/
def Store.Grants (s : Store) (target : ModuleId) (i : ImportEntry) (b : ImportBinding) : Prop :=
  ∃ s₁ s₂ : Store, s₁.bindImport target i = (.ok b, s₂) ∧ s₁.Furnishes s ∧ s₂.Furnishes s

/-- The environment is the one that is set up for a module with the entries. -/
structure Store.Suits (s : Store) (m : ModuleId) (es : Entries) (env : List (String × ImportBinding)) :
    Prop where
  all : ∀ i ∈ es.imports, (s.imported? m i.request).isSome → (env.lookup i.localName).isSome
  binds : ∀ name b, env.lookup name = some b → ∃ i target, s.latestImport? m es name = some i ∧
    s.imported? m i.request = some target ∧ s.Grants target i b

/-- The module has the environment that is set up for it. -/
def Store.Equipped (s : Store) (m : ModuleId) : Prop :=
  ∃ env, s.environment? m = some env ∧ s.Suits m (s.entries m) env

theorem Store.Equipped.bound {s : Store} {m : ModuleId} (h : s.Equipped m) : s.Bound m :=
  h.imp fun _ hsuits ↦ ⟨hsuits.1, hsuits.2.all⟩

/-- What was loaded is the same as before, and so is what is being loaded. Synthetic modules are as
far, and the texts of modules are the same. -/
structure Same (s s' : Store) : Prop where
  loaded : ∀ m, s'.loaded? m = s.loaded? m
  progress : ∀ m, s'.progress m = s.progress m
  script : ∀ m, s'.script? m = s.script? m
  loadings : s'.loadings = s.loadings
  furnishes : s.Furnishes s'
  environment : ∀ m, s'.environment? m = s.environment? m ∨ s'.Equipped m

/-- Moreover, modules have the same status, and walks have noted nothing in them. -/
structure Level (s s' : Store) : Prop extends Same s s' where
  status : ∀ m, s'.status? m = s.status? m
  points : ∀ m, s'.points? m = s.points? m

/-- Moreover, modules have the same environments. -/
structure Steady (s s' : Store) : Prop extends Level s s' where
  scenery : ∀ m, s'.environment? m = s.environment? m

/-- Requests that stood for a module stand for it still. -/
def Grows (s s' : Store) : Prop :=
  ∀ m r d, s.imported? m r = some d → s'.imported? m r = some d

/-- A change aside from evaluation, made up of changes that keep the outline and of changes of
promises. The relation holds of the former ones. -/
inductive Aside (K : Store → Store → Prop) : Store → Store → Prop where
  | view {s s' : Store} : s'.outline = s.outline → s'.promises = s.promises → s'.jobs = s.jobs →
      s'.keepsJobs = s.keepsJobs → K s s' → Aside K s s'
  | settle (s : Store) (p : PromiseId) (c : Completion) : Aside K s (s.settle p c)
  | react (s : Store) (p : PromiseId) {r : Reaction} :
      (∀ m, r ≠ .completeModule m) → Aside K s (s.react p r)
  | addPromise (s : Store) {q : Promise} :
      (∀ rs, q = .pending rs → rs = []) → Aside K s (s.addPromise q).2
  | trans {s s' s'' : Store} : Aside K s s' → Aside K s' s'' → Aside K s s''

/-- A change of bodies or of reading. -/
abbrev Apart : Store → Store → Prop := Aside Steady

/-- A change that may set up environments. -/
abbrev Furnishing : Store → Store → Prop := Aside Level

/-- A change of linking. -/
abbrev Inside : Store → Store → Prop := Aside Same

/-- A change of loading. -/
abbrev Afar : Store → Store → Prop := Aside Grows

theorem Store.imported?_eq (s : Store) (m : ModuleId) (r : Request) :
    s.imported? m r = (s.loaded? m).bind fun l ↦ (l.find? (·.request.same r)).map (·.module) := by
  unfold imported? loaded?
  cases s.source? m <;> rfl

theorem Same.imported {s s' : Store} (h : Same s s') (m : ModuleId) (r : Request) :
    s'.imported? m r = s.imported? m r := by
  rw [Store.imported?_eq, h.loaded, Store.imported?_eq]

theorem Store.entries_eq (s : Store) (m : ModuleId) :
    s.entries m = ((s.script? m).map (·.1)).getD {} := by
  unfold entries script?
  cases s.source? m <;> rfl

theorem Same.entries {s s' : Store} (h : Same s s') (m : ModuleId) :
    s'.entries m = s.entries m := by
  rw [Store.entries_eq, h.script, Store.entries_eq]

theorem Store.Suits.congr {s s' : Store} {m : ModuleId} {es : Entries}
    {env : List (String × ImportBinding)} (h : s.Suits m es env)
    (himported : ∀ r, s'.imported? m r = s.imported? m r) (hs : s.Furnishes s') :
    s'.Suits m es env := by
  refine ⟨fun i hi ↦ himported i.request ▸ h.all i hi, fun name b hb ↦ ?_⟩
  obtain ⟨i, target, hi, htarget, s₁, s₂, hbind, h₁, h₂⟩ := h.binds name b hb
  refine ⟨i, target, ?_, (himported _).trans htarget, s₁, s₂, hbind, h₁.trans hs, h₂.trans hs⟩
  simpa only [latestImport?, himported] using hi

theorem Same.trans {s s' s'' : Store} (h : Same s s') (h' : Same s' s'') : Same s s'' := by
  refine ⟨fun m ↦ (h'.loaded m).trans (h.loaded m), fun m ↦ (h'.progress m).trans (h.progress m),
    fun m ↦ (h'.script m).trans (h.script m), h'.loadings.trans h.loadings,
    h.furnishes.trans h'.furnishes, fun m ↦ ?_⟩
  rcases h'.environment m with heq | hbound
  · refine (h.environment m).imp heq.trans fun ⟨env, henv, hsuits⟩ ↦ ⟨env, heq.trans henv, ?_⟩
    rw [h'.entries]
    exact hsuits.congr (h'.imported m) h'.furnishes
  · exact .inr hbound

theorem Same.grows {s s' : Store} (h : Same s s') : Grows s s' :=
  fun m r _ hd ↦ (h.imported m r).trans hd

theorem Grows.of_modules {s s' : Store} (h : s'.modules = s.modules) : Grows s s' := fun m r d hd ↦ by
  rwa [Store.imported?, Store.source?, Store.module?, h]

theorem Grows.trans {s s' s'' : Store} (h : Grows s s') (h' : Grows s' s'') : Grows s s'' :=
  fun m r d hd ↦ h' m r d (h m r d hd)

theorem Level.trans {s s' s'' : Store} (h : Level s s') (h' : Level s' s'') : Level s s'' :=
  ⟨h.toSame.trans h'.toSame, fun m ↦ (h'.status m).trans (h.status m),
    fun m ↦ (h'.points m).trans (h.points m)⟩

theorem Steady.trans {s s' s'' : Store} (h : Steady s s') (h' : Steady s' s'') : Steady s s'' :=
  ⟨h.toLevel.trans h'.toLevel, fun m ↦ (h'.scenery m).trans (h.scenery m)⟩

namespace Store.Shelved

variable {s s' s'' : Store}

theorem of_modules (h : s'.modules = s.modules) (hn : s'.namespaces = s.namespaces) :
    s.Shelved s' := ⟨hn, fun m ↦ by rw [module?, h, module?]⟩

theorem trans (h : s.Shelved s') (h' : s'.Shelved s'') : s.Shelved s'' :=
  ⟨h'.namespaces.trans h.namespaces, fun m ↦ (h'.shelf m).trans (h.shelf m)⟩

theorem modifyModule (s : Store) (m : ModuleId) {f : Module → Module}
    (hf : ∀ r, (f r).shelf = r.shelf) : s.Shelved (s.modifyModule m f) := by
  refine ⟨rfl, fun x ↦ ?_⟩
  rw [module?_modifyModule]
  split
  · rw [Option.map_map]
    exact congrArg (fun g ↦ (s.module? x).map g) (funext hf)
  · rfl

theorem modifySource (s : Store) (m : ModuleId) (f : SourceText → SourceText) :
    s.Shelved (s.modifySource m f) := by
  refine modifyModule s m fun r ↦ ?_
  obtain ⟨r | r, _, _, _, _, _⟩ := r <;> rfl

theorem modifySynthetic (s : Store) (m : ModuleId) {f : Synthetic → Synthetic}
    (hf : ∀ r, (f r).exportNames = r.exportNames) : s.Shelved (s.modifySynthetic m f) := by
  refine modifyModule s m fun r ↦ ?_
  obtain ⟨r | r, _, _, _, _, _⟩ := r
  · rfl
  · simp only [Module.shelf, hf]

end Store.Shelved

theorem Store.environment?_eq (s : Store) (m : ModuleId) :
    s.environment? m = ((s.source? m).map (·.environment)).join := by
  unfold environment?
  cases s.source? m <;> rfl

theorem Store.environment?_congr {s s' : Store} (h : ∀ m, s'.source? m = s.source? m) (m : ModuleId) :
    s'.environment? m = s.environment? m := by
  rw [environment?, h, environment?]

theorem Steady.of_modules {s s' : Store} (h : s'.modules = s.modules)
    (hn : s'.namespaces = s.namespaces) (hl : s'.loadings = s.loadings) : Steady s s' := by
  have hsource := Store.source?_congr h
  have hloaded : ∀ m, s'.loaded? m = s.loaded? m := fun m ↦ by rw [Store.loaded?, hsource, Store.loaded?]
  have hscript : ∀ m, s'.script? m = s.script? m := fun m ↦ by rw [Store.script?, hsource, Store.script?]
  refine ⟨⟨⟨hloaded, fun m ↦ ?_, hscript, hl, .keep (.of_modules h hn) hloaded hscript,
    fun m ↦ .inl (Store.environment?_congr hsource m)⟩, fun m ↦ ?_, fun m ↦ ?_⟩,
    Store.environment?_congr hsource⟩
  · simp only [Store.progress, Store.synthetic?, Store.module?, h]
  · rw [Store.status?, hsource, Store.status?]
  · rw [Store.points?, hsource, Store.points?]

namespace Store

theorem modules_enqueue (s : Store) (jobs : List Job) : (s.enqueue jobs).modules = s.modules := by
  unfold enqueue
  split <;> rfl

theorem modules_settle (s : Store) (p : PromiseId) (c : Completion) :
    (s.settle p c).modules = s.modules := by
  unfold settle
  split
  · exact modules_enqueue _ _
  · rfl

theorem modules_react (s : Store) (p : PromiseId) (r : Reaction) :
    (s.react p r).modules = s.modules := by
  unfold react
  split
  · rfl
  · exact modules_enqueue _ _
  · exact modules_enqueue _ _
  · rfl

theorem loadings_enqueue (s : Store) (jobs : List Job) :
    (s.enqueue jobs).loadings = s.loadings := by
  unfold enqueue
  split <;> rfl

theorem loadings_settle (s : Store) (p : PromiseId) (c : Completion) :
    (s.settle p c).loadings = s.loadings := by
  unfold settle
  split
  · exact loadings_enqueue _ _
  · rfl

theorem loadings_react (s : Store) (p : PromiseId) (r : Reaction) :
    (s.react p r).loadings = s.loadings := by
  unfold react
  split
  · rfl
  · exact loadings_enqueue _ _
  · exact loadings_enqueue _ _
  · rfl

theorem namespaces_enqueue (s : Store) (jobs : List Job) :
    (s.enqueue jobs).namespaces = s.namespaces := by
  unfold enqueue
  split <;> rfl

theorem namespaces_settle (s : Store) (p : PromiseId) (c : Completion) :
    (s.settle p c).namespaces = s.namespaces := by
  unfold settle
  split
  · exact namespaces_enqueue _ _
  · rfl

theorem namespaces_react (s : Store) (p : PromiseId) (r : Reaction) :
    (s.react p r).namespaces = s.namespaces := by
  unfold react
  split
  · rfl
  · exact namespaces_enqueue _ _
  · exact namespaces_enqueue _ _
  · rfl

theorem settle_steady (s : Store) (p : PromiseId) (c : Completion) : Steady s (s.settle p c) :=
  .of_modules (s.modules_settle p c) (s.namespaces_settle p c) (s.loadings_settle p c)

theorem react_steady (s : Store) (p : PromiseId) (r : Reaction) : Steady s (s.react p r) :=
  .of_modules (s.modules_react p r) (s.namespaces_react p r) (s.loadings_react p r)

end Store

theorem Aside.mono {K K' : Store → Store → Prop} {s s' : Store} (hK : ∀ s s', K s s' → K' s s')
    (h : Aside K s s') : Aside K' s s' := by
  induction h with
  | view ho hp hj hk h => exact .view ho hp hj hk (hK _ _ h)
  | settle s p c => exact .settle s p c
  | react s p hr => exact .react s p hr
  | addPromise s hq => exact .addPromise s hq
  | trans _ _ ih ih' => exact .trans ih ih'

theorem Inside.afar {s s' : Store} (h : Inside s s') : Afar s s' :=
  Aside.mono (fun _ _ h ↦ h.grows) h

theorem Apart.afar {s s' : Store} (h : Apart s s') : Afar s s' :=
  Aside.mono (fun _ _ h ↦ h.grows) h

namespace Aside

variable {K : Store → Store → Prop} {s s' : Store}

theorem furnishing (h : Apart s s') : Furnishing s s' :=
  h.mono fun _ _ h ↦ h.toLevel

theorem inside_of_furnishing (h : Furnishing s s') : Inside s s' :=
  h.mono fun _ _ h ↦ h.toSame

theorem inside (h : Apart s s') : Inside s s' :=
  inside_of_furnishing h.furnishing

theorem outline (h : Aside K s s') : s'.outline = s.outline := by
  induction h with
  | view ho _ _ _ _ => exact ho
  | settle s p c => exact Store.outline_congr (s.modules_settle p c)
  | react s p _ => exact Store.outline_congr (s.modules_react p _)
  | addPromise s _ => exact Store.outline_congr rfl
  | trans _ _ ih ih' => rw [ih', ih]

theorem steady (h : Apart s s') : Steady s s' := by
  induction h with
  | view _ _ _ _ h => exact h
  | settle s p c => exact s.settle_steady p c
  | react s p _ => exact s.react_steady p _
  | addPromise s _ => exact .of_modules rfl rfl rfl
  | trans _ _ ih ih' => exact ih.trans ih'

theorem level (h : Furnishing s s') : Level s s' := by
  induction h with
  | view _ _ _ _ h => exact h
  | settle s p c => exact (s.settle_steady p c).toLevel
  | react s p _ => exact (s.react_steady p _).toLevel
  | @addPromise s q _ =>
    have h : Steady s (s.addPromise q).2 := .of_modules rfl rfl rfl
    exact h.toLevel
  | trans _ _ ih ih' => exact ih.trans ih'

theorem same (h : Inside s s') : Same s s' := by
  induction h with
  | view _ _ _ _ h => exact h
  | settle s p c => exact (s.settle_steady p c).toSame
  | react s p _ => exact (s.react_steady p _).toSame
  | @addPromise s q _ =>
    have h : Steady s (s.addPromise q).2 := .of_modules rfl rfl rfl
    exact h.toSame
  | trans _ _ ih ih' => exact ih.trans ih'

theorem grows (h : Afar s s') : Grows s s' := by
  induction h with
  | view _ _ _ _ h => exact h
  | settle s p c => exact .of_modules (s.modules_settle p c)
  | react s p _ => exact .of_modules (s.modules_react p _)
  | addPromise s _ => exact .of_modules rfl
  | trans _ _ ih ih' => exact ih.trans ih'

/-- A change of neither modules nor namespaces nor promises nor jobs nor what is being loaded. -/
theorem of_eq (hm : s'.modules = s.modules) (hn : s'.namespaces = s.namespaces)
    (hp : s'.promises = s.promises) (hj : s'.jobs = s.jobs) (hk : s'.keepsJobs = s.keepsJobs)
    (hl : s'.loadings = s.loadings) : Apart s s' :=
  .view (Store.outline_congr hm) hp hj hk (.of_modules hm hn hl)

theorem refl (s : Store) : Apart s s := of_eq rfl rfl rfl rfl rfl rfl

theorem far (hm : s'.modules = s.modules) (hp : s'.promises = s.promises)
    (hj : s'.jobs = s.jobs) (hk : s'.keepsJobs = s.keepsJobs) : Afar s s' :=
  .view (Store.outline_congr hm) hp hj hk (.of_modules hm)

/-- A change of modules that keeps their contents. -/
theorem of_content {m : ModuleId} {f : Module → Module} (hf : ∀ r, (f r).content = r.content)
    (hm : s'.modules = (s.modifyModule m f).modules) (hp : s'.promises = s.promises)
    (hj : s'.jobs = s.jobs) (hk : s'.keepsJobs = s.keepsJobs) (hl : s'.loadings = s.loadings)
    (hfurnishes : (∀ x, s'.loaded? x = s.loaded? x) → (∀ x, s'.script? x = s.script? x) →
      s.Furnishes s') : Apart s s' := by
  have hsource : ∀ x, s'.source? x = s.source? x := fun x ↦
    (Store.source?_congr hm x).trans (Store.source?_modifyModule_of_content hf x)
  have hsynthetic : ∀ x, s'.synthetic? x = s.synthetic? x := fun x ↦
    (Store.synthetic?_congr hm x).trans (Store.synthetic?_modifyModule_of_content hf x)
  have hloaded : ∀ x, s'.loaded? x = s.loaded? x := fun x ↦ by
    rw [Store.loaded?, hsource, Store.loaded?]
  have hscript : ∀ x, s'.script? x = s.script? x := fun x ↦ by
    rw [Store.script?, hsource, Store.script?]
  refine .view ((Store.outline_congr hm).trans (Store.outline_modifyModule hf)) hp hj hk
    ⟨⟨⟨hloaded, fun x ↦ ?_, hscript, hl, hfurnishes hloaded hscript,
      fun x ↦ .inl (Store.environment?_congr hsource x)⟩, fun x ↦ ?_, fun x ↦ ?_⟩,
      Store.environment?_congr hsource⟩
  · rw [Store.progress, hsynthetic, Store.progress]
  · rw [Store.status?, hsource, Store.status?]
  · rw [Store.points?, hsource, Store.points?]

theorem modifyModule (s : Store) (m : ModuleId) {f : Module → Module}
    (hf : ∀ r, (f r).content = r.content) (hshelf : ∀ r, (f r).shelf = r.shelf) :
    Apart s (s.modifyModule m f) :=
  of_content hf rfl rfl rfl rfl rfl (.keep (.modifyModule s m hshelf))

/-- A change of a module with source text that neither shows in the outline nor concerns its text or
what was loaded for its requests. An environment that it gives to the module binds what the module
imports. -/
theorem modifySource_of_environment (s : Store) (m : ModuleId) {f : SourceText → SourceText}
    (hf : ∀ r, s.source? m = some r →
      (f r).outline = r.outline ∧ (f r).loaded = r.loaded ∧ (f r).script = r.script)
    (henv : ∀ r, s.source? m = some r → (f r).environment = r.environment ∨
      ∃ env, (f r).environment = some env ∧ s.Suits m r.entries env) :
    Inside s (s.modifySource m f) := by
  have hkept : ∀ {α : Type} (g : SourceText → α), (∀ r, s.source? m = some r → g (f r) = g r) →
      ∀ x, ((s.modifySource m f).source? x).map g = (s.source? x).map g := fun g hg x ↦ by
    rw [Store.source?_modifySource]
    split
    · next h =>
      subst h
      rcases hx : s.source? x with _ | t
      · rfl
      · simp [hg t hx]
    · rfl
  have hloaded := hkept (·.loaded) fun r hr ↦ (hf r hr).2.1
  have hscript := hkept (·.script) fun r hr ↦ (hf r hr).2.2
  refine .view (Store.outline_modifySource_of_outline fun r hr ↦ (hf r hr).1) rfl rfl rfl
    ⟨hloaded, fun x ↦ ?_, hscript, rfl, .keep (.modifySource s m f) hloaded hscript, fun x ↦ ?_⟩
  · simp only [Store.progress, Store.synthetic?_modifySource]
  · by_cases hx : x = m
    · subst hx
      rcases hr : s.source? x with _ | r
      · exact .inl (by simp [Store.environment?, Store.source?_modifySource, hr])
      · have hafter : (s.modifySource x f).environment? x = (f r).environment := by
          simp [Store.environment?, Store.source?_modifySource, hr]
        refine (henv r hr).imp (fun heq ↦ ?_) fun ⟨env, heq, hall⟩ ↦ ⟨env, hafter.trans heq, ?_⟩
        · rw [hafter, heq, Store.environment?, hr, Option.bind_some]
        · have himported : ∀ q, (s.modifySource x f).imported? x q = s.imported? x q := fun q ↦ by
            rw [Store.imported?_eq, Store.imported?_eq, Store.loaded?, hloaded, Store.loaded?]
          have hentries : (s.modifySource x f).entries x = r.entries := by
            rw [Store.entries_eq, Store.script?, hscript, hr]
            rfl
          rw [hentries]
          exact hall.congr himported (.keep (.modifySource s x f) hloaded hscript)
    · exact .inl (by rw [Store.environment?, Store.source?_modifySource, if_neg hx, Store.environment?])

/-- A change of a module with source text that neither shows in the outline nor concerns its text, its
environment or what was loaded for its requests. -/
theorem modifySource (s : Store) (m : ModuleId) {f : SourceText → SourceText}
    (hf : ∀ r, s.source? m = some r → (f r).outline = r.outline ∧ (f r).loaded = r.loaded ∧
      (f r).script = r.script ∧ (f r).environment = r.environment) :
    Inside s (s.modifySource m f) :=
  modifySource_of_environment s m (fun r hr ↦ ⟨(hf r hr).1, (hf r hr).2.1, (hf r hr).2.2.1⟩)
    fun r hr ↦ .inl (hf r hr).2.2.2

/-- Moreover, the change concerns neither the status nor what walks have noted. -/
theorem modifySource_furnishing (s : Store) (m : ModuleId) {f : SourceText → SourceText}
    (hf : ∀ r, (f r).outline = r.outline ∧ (f r).loaded = r.loaded ∧ (f r).script = r.script ∧
      (f r).status = r.status ∧ (f r).points = r.points)
    (henv : ∀ r, s.source? m = some r → (f r).environment = r.environment ∨
      ∃ env, (f r).environment = some env ∧ s.Suits m r.entries env) :
    Furnishing s (s.modifySource m f) := by
  have hsame := (modifySource_of_environment s m (f := f)
    (fun r _ ↦ ⟨(hf r).1, (hf r).2.1, (hf r).2.2.1⟩) henv).same
  have hkept : ∀ {α : Type} (g : SourceText → α), (∀ r, g (f r) = g r) → ∀ x,
      ((s.modifySource m f).source? x).map g = (s.source? x).map g := fun g hg x ↦ by
    rw [Store.source?_modifySource]
    split
    · rw [Option.map_map]
      exact congrArg (fun h ↦ (s.source? x).map h) (funext hg)
    · rfl
  exact .view (Store.outline_modifySource_of_outline fun r hr ↦ (hf r).1) rfl rfl rfl
    ⟨hsame, hkept (·.status) fun r ↦ (hf r).2.2.2.1, hkept (·.points) fun r ↦ (hf r).2.2.2.2⟩

theorem modifySynthetic (s : Store) (m : ModuleId) {f : Synthetic → Synthetic}
    (hf : ∀ r, (f r).steps = r.steps ∧ (f r).completion = r.completion ∧
      (f r).exportNames = r.exportNames) :
    Apart s (s.modifySynthetic m f) := by
  have hsource := s.source?_modifySynthetic m f
  have hloaded : ∀ x, (s.modifySynthetic m f).loaded? x = s.loaded? x := fun x ↦ by
    rw [Store.loaded?, hsource, Store.loaded?]
  have hscript : ∀ x, (s.modifySynthetic m f).script? x = s.script? x := fun x ↦ by
    rw [Store.script?, hsource, Store.script?]
  refine .view (funext fun x ↦ ?_) rfl rfl rfl
    ⟨⟨⟨hloaded, fun x ↦ ?_, hscript, rfl,
      .keep (.modifySynthetic s m fun r ↦ (hf r).2.2) hloaded hscript,
      fun x ↦ .inl (Store.environment?_congr hsource x)⟩, fun x ↦ ?_, fun x ↦ ?_⟩,
      Store.environment?_congr hsource⟩
  · simp only [Store.outline, hsource]
  · simp only [Store.progress, Store.synthetic?_modifySynthetic]
    split
    · rcases s.synthetic? x with _ | t
      · rfl
      · simp [(hf t).1, (hf t).2.1]
    · rfl
  · rw [Store.status?, hsource, Store.status?]
  · rw [Store.points?, hsource, Store.points?]

theorem throw (s : Store) (kind : ErrorKind) (message : String) :
    Apart s (s.throw kind message).2 := of_eq rfl rfl rfl rfl rfl rfl

theorem print (s : Store) (line : String) : Apart s (s.print line) := of_eq rfl rfl rfl rfl rfl rfl

theorem newPromise (s : Store) : Aside K s s.newPromise.2 :=
  .addPromise s fun _ h ↦ by cases h; rfl

theorem settledPromise (s : Store) (c : Completion) : Aside K s (s.settledPromise c).2 := by
  rcases c with e | ⟨⟩
  · exact .addPromise s fun _ h ↦ by cases h
  · exact .addPromise s fun _ h ↦ by cases h

theorem defer (s : Store) {r : Reaction} (hr : ∀ m, r ≠ .completeModule m) :
    Aside K s (s.defer r) :=
  (settledPromise s (.ok ())).trans (.react _ _ hr)

end Aside

theorem Consults.aside {s s' : Store} (h : Consults s s') : Apart s s' := by
  cases h with
  | throw kind message => exact .throw s kind message
  | print line => exact .print s line
  | putOff call => exact .defer s fun _ h ↦ nomatch h

namespace Store

/-! ## Namespaces -/

theorem namespaceOf_apart (s : Store) (m : ModuleId) (phase : Phase) :
    Apart s (s.namespaceOf m phase).2 := by
  unfold namespaceOf
  split
  · exact .refl s
  · next hnone =>
    exact .of_content (m := m) (fun r ↦ by cases phase <;> rfl) rfl rfl rfl rfl rfl
      fun _ _ ↦ .make s m phase hnone

theorem variableValue_apart (s : Store) (m : ModuleId) (name : String) :
    Apart s (s.variableValue m name).2 := by
  unfold variableValue
  split
  · exact .refl s
  · exact .throw s _ _
  · exact .throw s _ _

theorem bindingValueFrom_apart (s : Store) (depth : Nat) (m : ModuleId) (name : String) :
    Apart s (s.bindingValueFrom depth m name).2 := by
  induction depth generalizing m name with
  | zero => exact .refl s
  | succ depth ih =>
    unfold bindingValueFrom
    split
    · exact .refl s
    · exact ih _ _
    · unfold ownValue
      split
      · exact .refl s
      · exact s.variableValue_apart m name

theorem readExport_apart (s : Store) (n : NamespaceId) (name : String) :
    Apart s (s.readExport n name).2 := by
  unfold readExport
  split
  · exact .refl s
  · split
    · exact .refl s
    · split
      · exact s.bindingValueFrom_apart _ _ _
      · exact s.namespaceOf_apart _ _
      · exact .refl s

/-! ## Bodies -/

theorem operandValue_apart (s : Store) (v : Operand) : Apart s (s.operandValue v).2 := by
  unfold operandValue
  split
  · exact .refl s
  · split
    · exact s.namespaceOf_apart _ _
    · exact .refl s

theorem localValue_apart (s : Store) (m : ModuleId) (name : String) :
    Apart s (s.localValue m name).2 := by
  unfold localValue
  split
  · exact s.variableValue_apart m name
  · split
    · exact .refl s
    · exact s.namespaceOf_apart _ _
    · exact (s.namespaceOf_apart _ _).trans (readExport_apart _ _ _)

theorem localNamespace_apart (s : Store) (m : ModuleId) (name : String) :
    Apart s (s.localNamespace m name).2 := by
  have h := s.localValue_apart m name
  unfold localNamespace
  split <;> next heq => rw [heq] at h; first | exact h | exact h.trans (.throw _ _ _)

theorem setExport_apart (s : Store) (m : ModuleId) (name : String) (v : Value) :
    Apart s (s.setExport m name v).2 := by
  unfold setExport
  split
  · exact .modifySynthetic s m fun _ ↦ ⟨rfl, rfl, rfl⟩
  · exact .throw s _ _

end Store

namespace Body

theorem putOff_apart (s : Store) (b : Body) (capability p : PromiseId) :
    Apart s (putOff s b capability p) :=
  .react s p fun _ h ↦ nomatch h

theorem withNamespace_apart (s : Store) (b : Body) (name : String)
    {f : Store → NamespaceId → Store × StepResult} (hf : ∀ s n, Apart s (f s n).1) :
    Apart s (withNamespace s b name f).1 := by
  have h := s.localNamespace_apart b.module name
  unfold withNamespace
  split
  · next heq =>
    rw [heq] at h
    exact h.trans (hf _ _)
  · next heq =>
    rw [heq] at h
    exact h

theorem afterCompletion_fst (x : Completion × Store) : (afterCompletion x).1 = x.2 := by
  obtain ⟨_ | _, _⟩ := x <;> rfl

/-- Taking a step of a body is nothing to evaluation. -/
theorem take_apart (s : Store) (b : Body) (step : Step) : Apart s (take s b step).1 := by
  cases step with
  | print text => exact .print s text
  | declareFunction name => exact .refl s
  | init name operand =>
    exact (s.operandValue_apart operand).trans (.modifyModule _ _ (fun _ ↦ rfl) fun _ ↦ rfl)
  | await =>
    simp only [take]
    split
    · exact .refl s
    · exact (Aside.settledPromise s _).trans (putOff_apart _ b _ _)
  | suspend label =>
    simp only [take]
    split
    · exact .refl s
    · refine (Aside.newPromise s).trans (.trans (Aside.of_eq ?_ ?_ ?_ ?_ ?_ ?_) (putOff_apart _ b _ _))
      all_goals rfl
  | read space name => exact withNamespace_apart s b space fun s _ ↦ .refl s
  | probe space name => exact withNamespace_apart s b space fun s _ ↦ .refl s
  | has space name => exact withNamespace_apart s b space fun s _ ↦ .print s _
  | keys space => exact withNamespace_apart s b space fun s _ ↦ .print s _
  | binding name =>
    have h := s.localValue_apart b.module name
    simp only [take]
    split
    · next heq =>
      rw [heq] at h
      exact h.trans (.print _ _)
    · next heq =>
      rw [heq] at h
      exact h
  | expose space =>
    exact withNamespace_apart s b space fun s _ ↦ .of_eq rfl rfl rfl rfl rfl rfl
  | exposeModule name phase =>
    simp only [take]
    split
    · exact (s.namespaceOf_apart _ _).trans (.of_eq rfl rfl rfl rfl rfl rfl)
    · exact .refl s
  | readExposed name => simp only [take]; split <;> exact .refl s
  | link name => simp only [take]; split <;> exact .refl s
  | evaluate name => simp only [take]; split <;> exact .refl s
  | status name => simp only [take]; split <;> exact .print s _
  | setExport name exported operand =>
    have h := s.operandValue_apart operand
    simp only [take]
    split
    · rw [afterCompletion_fst]
      exact h.trans (Store.setExport_apart _ _ _ _)
    · exact h
  | setOwn name operand =>
    simp only [take, afterCompletion_fst]
    exact (s.operandValue_apart operand).trans (Store.setExport_apart _ _ _ _)
  | throw kind message => exact .throw s kind message
  | reject kind message =>
    simp only [take]
    split
    · exact (Aside.throw s kind message).trans (.settle _ _ _)
    · exact .refl s
  | resolve =>
    simp only [take]
    split
    · exact .settle s _ _
    · exact .refl s

theorem finish_apart (s : Store) (b : Body) (c : Completion) : Apart s (b.finish s c).2 := by
  unfold finish
  split
  · exact .settle s _ _
  · exact .settle s _ _
  · exact .refl s

theorem give_apart (s : Store) (b : Body) (c : Completion) : Apart s (give s b c).1 :=
  finish_apart s b c

theorem advance_apart (s : Store) (b : Body) : Apart s (b.advance s).1 := by
  unfold advance
  split
  · exact give_apart s b _
  · next step rest _ =>
    have h := take_apart s { b with steps := rest } step
    dsimp only
    split <;> next heq => rw [heq] at h; first | exact h | exact h.trans (give_apart _ _ _)

end Body

/-! ## Jobs of the host -/

theorem Watch.run_apart (s : Store) (w : Watch) (c : Completion) : Apart s (w.run s c).2 := by
  have hresolve : ∀ s : Store, Apart s (w.resolve.elim s s.resolve) := by
    intro s
    cases w.resolve with
    | none => exact .refl s
    | some p => exact .settle s p _
  have hsettle : ∀ s : Store, Apart s (w.settle.elim s fun p ↦ s.settle p c) := by
    intro s
    cases w.settle with
    | none => exact .refl s
    | some p => exact .settle s p c
  simp only [Watch.run]
  cases w.chain with
  | none => exact ((Aside.print s _).trans (hresolve _)).trans (hsettle _)
  | some label =>
    have hchain : ∀ s : Store, Apart s (s.react w.promise (.note label)) := fun s ↦
      .react s _ fun _ h ↦ absurd h (by simp)
    exact (((Aside.print s _).trans (hchain _)).trans (hresolve _)).trans (hsettle _)

end EcmaModules
