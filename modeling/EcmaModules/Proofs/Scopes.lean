import EcmaModules.Proofs.Ascent

/-!
# Scopes

Linking and evaluating take modules further that a walk has come to, that wait for others, or that
were set free. They never reach a module in another way. So a set of modules that contains all that
walks, parents, reactions and jobs refer to, and everything imported into it, contains whatever
becomes of any module: the others stay as they are.

The set is a parameter throughout, together with the requests that the walks go along. What such a
change leaves alone altogether is what was loaded and is being loaded, the texts of modules, and how
far synthetic modules have come.
-/

namespace EcmaModules

open EvaluationWalk (completeStatus concludeSearched_eq closesComponent)

/-- Some modules, and some requests that modules make. -/
structure Scope where
  has : ModuleId → Prop
  asks : ModuleId → Request → Prop

/-- What is in the one scope is in the other one. -/
structure Scope.Within (K K' : Scope) : Prop where
  has : ∀ m, K.has m → K'.has m
  asks : ∀ m r, K.asks m r → K'.asks m r

variable {K K' : Scope}

/-! ## Changes in a scope -/

/-- What becomes of a module when only modules in scope come further, and only those come to wait or
to stand for others. -/
structure SourceText.Among (K : Scope) (m : ModuleId) (r r' : SourceText) : Prop where
  script : r'.script = r.script
  loaded : r'.loaded = r.loaded
  environment : r'.environment = r.environment
  status : r'.status = r.status ∨ K.has m ∧ r'.status ≠ .new
  points : r'.points = r.points ∨ K.has m
  parents : ∀ p ∈ r'.asyncParents, p ∈ r.asyncParents ∨ K.has p
  root : r'.cycleRoot = r.cycleRoot ∨ ∀ x ∈ r'.cycleRoot, K.has x

/-- A change of the modules in scope. -/
inductive Store.Among (K : Scope) : Store → Store → Prop where
  | furnish {s s' : Store} : Furnishing s s' →
      (∀ m, ¬K.has m → s'.environment? m = s.environment? m) → Among K s s'
  | modify (s : Store) (m : ModuleId) {f : SourceText → SourceText} :
      (∀ r, s.source? m = some r → r.Among K m (f r)) → Among K s (s.modifySource m f)
  | react (s : Store) (p : PromiseId) {m : ModuleId} :
      K.has m → Among K s (s.react p (.completeModule m))
  | trans {s s' s'' : Store} : Among K s s' → Among K s' s'' → Among K s s''

/-- The reaction waits for a promise, or has become a job. -/
def Store.Plans (s : Store) (r : Reaction) : Prop :=
  (∃ p, r ∈ s.reactions p) ∨ ∃ c, ⟨r, c⟩ ∈ s.jobs

/-- Modules and reactions refer to modules in scope only. -/
structure Store.Refers (s : Store) (K : Scope) : Prop where
  parents : ∀ m r, s.source? m = some r → ∀ p ∈ r.asyncParents, K.has p
  root : ∀ m r, s.source? m = some r → ∀ x ∈ r.cycleRoot, K.has x
  plans : ∀ m, s.Plans (.completeModule m) → K.has m

/-- The scope is large enough for whatever walks come to in it. -/
structure Store.Holds (s : Store) (K : Scope) : Prop where
  asks : ∀ m, ∀ r ∈ (s.entries m).requests, K.asks m r
  imports : ∀ m r d, K.has m → K.asks m r → s.imported? m r = some d → K.has d

/-- Moreover, it has all modules that have been loaded. -/
structure Store.Knows (s : Store) (K : Scope) : Prop extends s.Holds K where
  old : ∀ m r, s.source? m = some r → r.status ≠ .new → K.has m

namespace Store

variable {s s' s'' : Store} {m x : ModuleId} {r r' : Reaction}

/-! ### Reactions -/

theorem Plans.of_eq (hp : s'.promises = s.promises) (hj : s'.jobs = s.jobs) (h : s'.Plans r) :
    s.Plans r := by
  refine h.imp (fun ⟨p, hr⟩ ↦ ⟨p, ?_⟩) fun ⟨c, hr⟩ ↦ ⟨c, hj ▸ hr⟩
  have heq : s'.reactions p = s.reactions p := reactions_eq (by simp only [promise?, hp])
  rwa [heq] at hr

theorem Plans.enqueue {jobs : List Job} (h : (s.enqueue jobs).Plans r) :
    s.Plans r ∨ ∃ c, ⟨r, c⟩ ∈ jobs := by
  rcases h with ⟨p, hr⟩ | ⟨c, hr⟩
  · rw [reactions_eq (s.promise?_enqueue jobs p)] at hr
    exact .inl (.inl ⟨p, hr⟩)
  · rw [jobs_enqueue] at hr
    split at hr
    · exact (List.mem_append.1 hr).imp (fun hr ↦ .inr ⟨c, hr⟩) fun hr ↦ ⟨c, hr⟩
    · exact .inl (.inr ⟨c, hr⟩)

theorem reactions_set {p q : PromiseId} {P : Promise}
    (h : r ∈ ({ s with promises := s.promises.set! p.index P } : Store).reactions q) :
    r ∈ s.reactions q ∨ ∃ rs, P = .pending rs ∧ r ∈ rs := by
  simp only [reactions, promise?_set] at h
  split at h
  · next rs heq =>
    split at heq
    · exact .inr ⟨rs, Option.some.inj heq, h⟩
    · exact .inl (by simpa [reactions, heq] using h)
  · exact absurd h List.not_mem_nil

theorem Plans.settle {p : PromiseId} {c : Completion} (h : (s.settle p c).Plans r) : s.Plans r := by
  unfold Store.settle at h
  split at h
  · next rs hrs =>
    rcases h.enqueue with (⟨q, hr⟩ | hj) | ⟨c', hr⟩
    · rcases reactions_set hr with hr | ⟨rs', heq, -⟩
      · exact .inl ⟨q, hr⟩
      · exact absurd heq (settledState_ne_pending c rs')
    · exact .inr hj
    · obtain ⟨r₀, hr₀, heq⟩ := List.mem_map.1 hr
      obtain rfl : r₀ = r := congrArg Job.reaction heq
      exact .inl ⟨p, by simpa [reactions, hrs] using hr₀⟩
  · exact h

theorem Plans.react {p : PromiseId} (h : (s.react p r').Plans r) : s.Plans r ∨ r = r' := by
  have hnew : ∀ {c}, (s.enqueue [⟨r', c⟩]).Plans r → s.Plans r ∨ r = r' := fun h ↦
    h.enqueue.imp_right fun ⟨_, hr⟩ ↦ congrArg Job.reaction (List.mem_singleton.1 hr)
  unfold Store.react at h
  split at h
  · next rs hrs =>
    rcases h with ⟨q, hr⟩ | hj
    · rcases reactions_set hr with hr | ⟨rs', heq, hr⟩
      · exact .inl (.inl ⟨q, hr⟩)
      · obtain rfl := Promise.pending.inj heq
        refine (List.mem_append.1 hr).imp (fun hr ↦ .inl ⟨p, ?_⟩) List.mem_singleton.1
        simpa [reactions, hrs] using hr
    · exact .inl (.inr hj)
  · exact hnew h
  · exact hnew h
  · exact .inl h

theorem Plans.addPromise {P : Promise} (hP : ∀ rs, P = .pending rs → rs = [])
    (h : (s.addPromise P).2.Plans r) : s.Plans r := by
  refine h.imp_left fun ⟨q, hr⟩ ↦ ⟨q, ?_⟩
  simp only [reactions, promise?_addPromise] at hr
  split at hr
  · next rs heq =>
    split at heq
    · rw [hP rs (Option.some.inj heq)] at hr
      exact absurd hr List.not_mem_nil
    · simpa [reactions, heq] using hr
  · exact absurd hr List.not_mem_nil

theorem Refers.of_outline (h : s.Refers K) (ho : s'.outline = s.outline)
    (hp : ∀ m, s'.Plans (.completeModule m) → s.Plans (.completeModule m)) : s'.Refers K := by
  have hsource : ∀ m r, s'.source? m = some r → ∃ r₀, s.source? m = some r₀ ∧
      r.asyncParents = r₀.asyncParents ∧ r.cycleRoot = r₀.cycleRoot := fun m r hr ↦ by
    have hm : s.outline m = some r.outline := by rw [← ho, outline_eq_some hr]
    obtain ⟨r₀, hr₀, heq⟩ := source?_of_outline hm
    exact ⟨r₀, hr₀, (congrArg (·.asyncParents) heq :).symm, (congrArg (·.cycleRoot) heq :).symm⟩
  refine ⟨fun m r hr ↦ ?_, fun m r hr ↦ ?_, fun m hm ↦ h.plans m (hp m hm)⟩
  · obtain ⟨r₀, hr₀, heq, -⟩ := hsource m r hr
    exact heq ▸ h.parents m r₀ hr₀
  · obtain ⟨r₀, hr₀, -, heq⟩ := hsource m r hr
    exact heq ▸ h.root m r₀ hr₀

/-- A change aside from evaluation makes nobody refer to a module. -/
theorem Refers.aside {P : Store → Store → Prop} (ha : Aside P s s') (h : s.Refers K) :
    s'.Refers K := by
  induction ha with
  | view ho hp hj _ _ => exact h.of_outline ho fun _ ↦ .of_eq hp hj
  | settle s p c => exact h.of_outline (outline_congr (s.modules_settle p c)) fun _ ↦ .settle
  | react s p hr =>
    exact h.of_outline (outline_congr (s.modules_react p _)) fun m hm ↦
      hm.react.resolve_right fun heq ↦ hr m heq.symm
  | addPromise s hq => exact h.of_outline (outline_congr rfl) fun _ ↦ .addPromise hq
  | trans _ _ ih ih' => exact ih' (ih h)

theorem Refers.among (ha : s.Among K s') (h : s.Refers K) : s'.Refers K := by
  induction ha with
  | furnish ha _ => exact h.aside ha
  | modify s m hf =>
    refine ⟨fun x r hr p hp ↦ ?_, fun x r hr y hy ↦ ?_,
      fun x hx ↦ h.plans x (.of_eq rfl rfl hx)⟩ <;>
    · rw [source?_modifySource] at hr
      split at hr
      · next hx =>
        obtain ⟨r₀, hr₀, rfl⟩ := Option.map_eq_some_iff.1 hr
        have := hf r₀ (hx ▸ hr₀)
        first
          | exact (this.parents p hp).elim (h.parents x r₀ hr₀ p) id
          | exact this.root.elim (fun heq ↦ h.root x r₀ hr₀ y (heq ▸ hy)) (· y hy)
      · first
          | exact h.parents x r hr p hp
          | exact h.root x r hr y hy
  | react s p hm =>
    refine ⟨fun x r hr ↦ h.parents x r ?_, fun x r hr ↦ h.root x r ?_, fun x hx ↦ ?_⟩
    · rwa [source?_congr (s.modules_react p _)] at hr
    · rwa [source?_congr (s.modules_react p _)] at hr
    · rcases hx.react with hx | heq
      · exact h.plans x hx
      · exact Reaction.completeModule.inj heq ▸ hm
  | trans _ _ ih ih' => exact ih' (ih h)

theorem Refers.mono (h : s.Refers K) (hK : K.Within K') : s.Refers K' :=
  ⟨fun m r hr p hp ↦ hK.has p (h.parents m r hr p hp),
    fun m r hr x hx ↦ hK.has x (h.root m r hr x hx), fun m hm ↦ hK.has m (h.plans m hm)⟩

end Store

/-! ## What such a change leaves alone -/

namespace Store.Among

variable {s s' : Store} {m : ModuleId}

theorem same (h : s.Among K s') : Same s s' := by
  induction h with
  | furnish h _ => exact h.level.toSame
  | modify s m hf =>
    have hkept : ∀ {α : Type} (g : SourceText → α) {f : SourceText → SourceText},
        (∀ r, s.source? m = some r → g (f r) = g r) → ∀ x,
          ((s.modifySource m f).source? x).map g = (s.source? x).map g := fun g f hg x ↦ by
      rw [source?_modifySource]
      split
      · next hx =>
        subst hx
        rcases hr : s.source? x with _ | r
        · rfl
        · simp [hg r hr]
      · rfl
    have hloaded := hkept (·.loaded) fun r hr ↦ (hf r hr).loaded
    have hscript := hkept (·.script) fun r hr ↦ (hf r hr).script
    have henv := hkept (·.environment) fun r hr ↦ (hf r hr).environment
    refine ⟨hloaded, fun x ↦ ?_, hscript, rfl, .keep (.modifySource s m _) hloaded hscript,
      fun x ↦ .inl ?_⟩
    · simp only [progress, synthetic?_modifySource]
    · rw [environment?_eq, henv, ← environment?_eq]
  | react s p _ => exact (s.react_steady p _).toSame
  | trans _ _ ih ih' => exact ih.trans ih'

theorem status (h : s.Among K s') (hm : ¬K.has m) : s'.status? m = s.status? m := by
  induction h with
  | furnish h _ => exact h.level.status m
  | modify s x hf =>
    rw [status?_modifySource]
    split
    · next hx =>
      subst hx
      rcases hr : s.source? m with _ | r
      · simp [status?, hr]
      · simp [status?, hr, (hf r hr).status.resolve_right fun h ↦ hm h.1]
    · rfl
  | react s p _ => exact (s.react_steady p _).status m
  | trans _ _ ih ih' => exact ih'.trans ih

theorem points (h : s.Among K s') (hm : ¬K.has m) : s'.points? m = s.points? m := by
  induction h with
  | furnish h _ => exact h.level.points m
  | modify s x hf =>
    rw [points?, source?_modifySource]
    split
    · next hx =>
      subst hx
      rcases hr : s.source? m with _ | r
      · simp [points?, hr]
      · simp [points?, hr, (hf r hr).points.resolve_right hm]
    · rfl
  | react s p _ => exact (s.react_steady p _).points m
  | trans _ _ ih ih' => exact ih'.trans ih

theorem not_new (h : s.Among K s') (hm : s.status? m ≠ some .new) : s'.status? m ≠ some .new := by
  induction h with
  | furnish h _ => rwa [h.level.status m]
  | modify s x hf =>
    rw [status?_modifySource]
    split
    · next hx =>
      subst hx
      rcases hr : s.source? m with _ | r
      · exact nofun
      · rcases (hf r hr).status with heq | ⟨-, hne⟩
        · simpa [status?, hr, heq] using hm
        · simpa using hne
    · exact hm
  | react s p _ =>
    rwa [(s.react_steady p _).status m]
  | trans _ _ ih ih' => exact ih' (ih hm)

theorem environment (h : s.Among K s') (hm : ¬K.has m) : s'.environment? m = s.environment? m := by
  induction h with
  | furnish _ h => exact h m hm
  | modify s x hf =>
    rw [environment?, source?_modifySource]
    split
    · next hx =>
      subst hx
      rcases hr : s.source? m with _ | r
      · simp [environment?, hr]
      · simp [environment?, hr, (hf r hr).environment]
    · rfl
  | react s p _ => exact (s.react_steady p _).scenery m
  | trans _ _ ih ih' => exact ih'.trans ih

/-- If no module in scope is new, the same modules are new as before. -/
theorem new_iff (h : s.Among K s') (hK : ∀ m, K.has m → s.status? m ≠ some .new) (m : ModuleId) :
    s'.status? m = some .new ↔ s.status? m = some .new := by
  refine ⟨fun hm ↦ Classical.not_not.1 fun hne ↦ h.not_new hne hm, fun hm ↦ ?_⟩
  rwa [h.status fun hk ↦ hK m hk hm]

/-! ## Changes of evaluation -/

theorem apart (h : Apart s s') : s.Among K s' := .furnish h.furnishing fun m _ ↦ h.steady.scenery m

theorem refl (s : Store) : s.Among K s := apart (.refl s)

/-- A change of a module that matters to none of this. -/
theorem still (s : Store) (m : ModuleId) {f : SourceText → SourceText}
    (hf : ∀ r, (f r).script = r.script ∧ (f r).loaded = r.loaded ∧
      (f r).environment = r.environment ∧ (f r).status = r.status ∧
      (f r).asyncParents = r.asyncParents ∧ (f r).cycleRoot = r.cycleRoot ∧
      (f r).points = r.points) :
    s.Among K (s.modifySource m f) :=
  .modify s m fun r _ ↦
    ⟨(hf r).1, (hf r).2.1, (hf r).2.2.1, .inl (hf r).2.2.2.1, .inl (hf r).2.2.2.2.2.2,
      fun _ hp ↦ .inl ((hf r).2.2.2.2.1 ▸ hp), .inl (hf r).2.2.2.2.2.1⟩

theorem foldl {α : Type} {f : Store → α → Store} {l : List α}
    (hf : ∀ (s : Store), ∀ a ∈ l, s.Among K (f s a)) (s : Store) : s.Among K (l.foldl f s) := by
  induction l generalizing s with
  | nil => exact refl s
  | cons a l ih =>
    exact (hf s a List.mem_cons_self).trans (ih (fun s b hb ↦ hf s b (List.mem_cons_of_mem _ hb)) _)

theorem setStatus (s : Store) (hm : K.has m) {st : Status} (hst : st ≠ .new) :
    s.Among K (s.setStatus m st) :=
  .modify s m fun _ _ ↦ ⟨rfl, rfl, rfl, .inr ⟨hm, hst⟩, .inl rfl, fun _ ↦ .inl, .inl rfl⟩

theorem settleAsync (s : Store) (m : ModuleId) : s.Among K (s.settleAsync m) :=
  still s m fun _ ↦ ⟨rfl, rfl, rfl, rfl, rfl, rfl, rfl⟩

theorem settle (s : Store) (p : PromiseId) (c : Completion) : s.Among K (s.settle p c) :=
  .apart (.settle s p c)

theorem resolveCapability (s : Store) (m : ModuleId) : s.Among K (s.resolveCapability m) := by
  unfold Store.resolveCapability
  split
  · exact settle s _ _
  · exact refl s

theorem rejectCapability (s : Store) (m : ModuleId) (e : ErrorId) :
    s.Among K (s.rejectCapability m e) := by
  unfold Store.rejectCapability
  split
  · exact settle s _ _
  · exact refl s

theorem newCapability (s : Store) (m : ModuleId) : s.Among K (s.newCapability m).2 :=
  .trans (.apart (.newPromise s)) (still _ m fun _ ↦ ⟨rfl, rfl, rfl, rfl, rfl, rfl, rfl⟩)

theorem holdModule (s : Store) (m : ModuleId) : s.Among K (s.holdModule m) :=
  still s m fun _ ↦ ⟨rfl, rfl, rfl, rfl, rfl, rfl, rfl⟩

theorem holdSearched (s : Store) (m : ModuleId) : s.Among K (s.holdSearched m) :=
  still s m fun r ↦ by split <;> exact ⟨rfl, rfl, rfl, rfl, rfl, rfl, rfl⟩

theorem lowerAncestor (s : Store) (hm : K.has m) (index : Nat) :
    s.Among K (s.lowerAncestor m index) :=
  .modify s m fun _ _ ↦ ⟨rfl, rfl, rfl, .inl rfl, .inr hm, fun _ ↦ .inl, .inl rfl⟩

theorem setDfsIndex (s : Store) (hm : K.has m) (index : Nat) :
    s.Among K (s.setDfsIndex m index) :=
  .modify s m fun _ _ ↦ ⟨rfl, rfl, rfl, .inl rfl, .inr hm, fun _ ↦ .inl, .inl rfl⟩

theorem startAsync (s : Store) (hm : K.has m) : s.Among K (s.startAsync m).2 :=
  (holdModule s m).trans (.trans (.apart (.newPromise _)) (.react _ _ hm))

theorem failModules (s : Store) {stack : List ModuleId} (hstack : ∀ x ∈ stack, K.has x) (e : ErrorId) :
    s.Among K (s.failModules stack e) :=
  foldl (f := fun s m ↦ s.modifySource m fun r ↦ r.fail e) (fun s m hm ↦ .modify s m fun _ _ ↦
    ⟨rfl, rfl, rfl, .inr ⟨hstack m hm, nofun⟩, .inl rfl, fun _ ↦ .inl, .inl rfl⟩) s

theorem finishModule (s : Store) (hm : K.has m) : s.Among K (s.finishModule m) :=
  .trans (.trans (settleAsync s m) (setStatus _ hm (by decide : Status.evaluated ≠ .new))) (resolveCapability _ m)

theorem finishSearched (s : Store) (hm : K.has m) : s.Among K (s.finishSearched m) :=
  .trans (.trans (setStatus s hm (by decide : Status.asyncSubgraphsEvaluated ≠ .new)) (settleAsync _ m))
    (resolveCapability _ m)

theorem lessen (s : Store) (m : ModuleId) : s.Among K (s.lessen m) :=
  still s m fun _ ↦ ⟨rfl, rfl, rfl, rfl, rfl, rfl, rfl⟩

theorem fulfillModule (s : Store) (hm : K.has m) : s.Among K (s.fulfillModule m).1 := by
  unfold Store.fulfillModule
  split
  · exact refl s
  · exact (finishModule s hm).trans
      (gatherFrom_of_lessen refl (fun _ _ _ ↦ .trans) lessen _ _ m [])

/-- Failing a module concerns those that wait for it. -/
theorem rejectFrom (depth : Nat) {s : Store} (hs : s.Refers K) (hm : K.has m) (e : ErrorId) :
    s.Among K (s.rejectFrom depth m e) := by
  induction depth generalizing s m with
  | zero => exact refl s
  | succ depth ih =>
    unfold Store.rejectFrom
    split
    · exact refl s
    · have hmark : s.Among K (s.markFailed m e) := .modify s m fun _ _ ↦
        ⟨rfl, rfl, rfl, .inr ⟨hm, by simp⟩, .inl rfl, fun _ ↦ .inl, .inl rfl⟩
      have hparents : ∀ p ∈ (((s.markFailed m e).source? m).map (·.asyncParents)).getD [], K.has p := by
        intro p hp
        rcases hr : (s.markFailed m e).source? m with _ | r
        · simp [hr] at hp
        · exact (hs.among hmark).parents m r hr p (by simpa [hr] using hp)
      have hfold : ∀ (ps : List ModuleId) (s : Store), s.Refers K → (∀ p ∈ ps, K.has p) →
          s.Among K (ps.foldl (fun s p ↦ s.rejectFrom depth p e) s) := fun ps ↦ by
        induction ps with
        | nil => exact fun s _ _ ↦ refl s
        | cons p ps ihps =>
          intro s hs hps
          have hp := ih hs (hps p List.mem_cons_self)
          exact hp.trans (ihps _ (hs.among hp) fun q hq ↦ hps q (List.mem_cons_of_mem _ hq))
      exact hmark.trans (.trans (hfold _ _ (hs.among hmark) hparents) (rejectCapability _ m e))

theorem continueFree (s : Store) (hm : K.has m) : s.Among K (s.continueFree m).2 := by
  unfold Store.continueFree
  split
  · exact refl s
  · split
    · exact refl s
    · split
      · exact startAsync s hm
      · split
        · exact finishSearched s hm
        · exact refl s

theorem finishFree (hs : s.Refers K) (hm : K.has m) (capability : Option PromiseId) (c : Completion) :
    s.Among K (s.finishFree m capability c) := by
  rcases capability with _ | p <;> rcases c with e | ⟨⟩
  · exact rejectFrom _ hs hm e
  · rw [s.finishFree_eq_finishModule]
    exact finishModule s hm
  · exact settle s p _
  · exact refl s

end Store.Among

/-! ## Walks that evaluate -/

/-- The modules of the walk are in scope, and the requests that it has not come to. -/
structure EvaluationWalk.Among (w : EvaluationWalk) (K : Scope) : Prop where
  frames : ∀ f ∈ w.frames, K.has f.module ∧ ∀ r ∈ f.requests, K.asks f.module r
  stack : ∀ x ∈ w.stack, K.has x

theorem EvaluationWalk.Among.mono {w : EvaluationWalk} (h : w.Among K) (hK : K.Within K') :
    w.Among K' :=
  ⟨fun f hf ↦ ⟨hK.has _ (h.frames f hf).1, fun r hr ↦ hK.asks _ r ((h.frames f hf).2 r hr)⟩,
    fun x hx ↦ hK.has x (h.stack x hx)⟩

/-- What a walk comes to next is in scope. -/
def EvaluationStep.Among (K : Scope) : EvaluationStep → Prop
  | .done => True
  | .failed _ stack => ∀ x ∈ stack, K.has x
  | .go w => w.Among K
  | .synthetic _ w => w.Among K
  | .execute _ _ w => w.Among K

/-- A step of a walk in scope. -/
structure EvaluationWalk.Keeps (K : Scope) (s : Store)
    (x : Store × EvaluationStep) : Prop where
  store : s.Among K x.1
  step : x.2.Among K

namespace EvaluationWalk

open Store.Among (refl still)

variable {s : Store} {w : EvaluationWalk} {m d : ModuleId} {t : Traversal}

theorem await_among (s : Store) (hm : K.has m) (d : ModuleId) : s.Among K (await s m d) := by
  rcases await_cases s m d with h | ⟨_, _, _, _, _, _, h⟩
  · rw [h]
    exact refl s
  · rw [h]
    refine .trans (still s m (f := fun r ↦ { r with pendingAsync := r.pendingAsync + 1 })
      fun _ ↦ ⟨rfl, rfl, rfl, rfl, rfl, rfl, rfl⟩) (.modify _ d fun r _ ↦ ?_)
    refine ⟨rfl, rfl, rfl, .inl rfl, .inl rfl, fun p hp ↦ ?_, .inl rfl⟩
    refine (List.mem_append.1 hp).imp_right fun hp ↦ ?_
    rwa [List.mem_singleton.1 hp]

theorem detach_among (s : Store) (w : EvaluationWalk) (hm : K.has m) : s.Among K (detach s w m) := by
  unfold detach
  split
  · refine .modify s m fun r _ ↦ ⟨rfl, rfl, rfl, .inl rfl, .inl rfl, fun _ ↦ .inl,
      .inr fun x hx ↦ ?_⟩
    rwa [← Option.mem_some.1 hx]
  · exact refl s

theorem leave_among (s : Store) (hm : K.has m) (d : ModuleId) : s.Among K (leave s m d).2 := by
  unfold leave
  split
  · split
    · exact (Store.Among.lowerAncestor s hm _).trans (await_among _ hm d)
    · split
      · exact await_among s hm d
      · dsimp only
        split
        · exact refl s
        · exact await_among s hm _
  · exact refl s

theorem back_keeps (s : Store) (hw : w.Among K) (d : ModuleId) : Keeps K s (back s w d) := by
  unfold back
  split
  · exact ⟨refl s, hw⟩
  · next f rest hf =>
    have h := leave_among s (hw.frames f (hf ▸ List.mem_cons_self)).1 d
    split <;> next heq => rw [heq] at h; first | exact ⟨h, hw⟩ | exact ⟨h, hw.stack⟩

theorem Keeps.of_among {s' : Store} {x : Store × EvaluationStep} (h : s.Among K s')
    (hx : Keeps K s' x) : Keeps K s x := ⟨h.trans hx.store, hx.step⟩

theorem completeMember_among (s : Store) {root : ModuleId} (hroot : K.has root) (hm : K.has m) :
    s.Among K (completeMember s root m) := by
  refine .modify s m fun r _ ↦ ⟨rfl, rfl, rfl, ?_, .inl rfl, fun _ ↦ .inl, .inr fun x hx ↦ ?_⟩
  · change completeStatus r = r.status ∨ K.has m ∧ completeStatus r ≠ .new
    unfold completeStatus
    by_cases hp : r.asyncState = .pending <;> cases r.status <;> simp [hp, hm]
  · rwa [← Option.mem_some.1 hx]

theorem popExecuted_among {stack : List ModuleId} (hm : K.has m) (hstack : ∀ x ∈ stack, K.has x)
    (s : Store) : s.Among K (popExecuted s m stack).1 ∧ ∀ x ∈ (popExecuted s m stack).2, K.has x := by
  induction stack generalizing s with
  | nil => exact ⟨refl s, nofun⟩
  | cons x stack ih =>
    have hx := completeMember_among s hm (hstack x List.mem_cons_self)
    have hrest := fun y hy ↦ hstack y (List.mem_cons_of_mem x hy)
    rw [popExecuted]
    split
    · exact ⟨hx, hrest⟩
    · exact (ih hrest _).imp_left hx.trans

theorem popSearched_among {stack : List ModuleId} (hm : K.has m) (hstack : ∀ x ∈ stack, K.has x)
    (s : Store) : s.Among K (popSearched s m stack).1 ∧ ∀ x ∈ (popSearched s m stack).2, K.has x := by
  induction stack generalizing s with
  | nil => exact ⟨refl s, nofun⟩
  | cons x stack ih =>
    have hx := completeMember_among s hm (hstack x List.mem_cons_self)
    have hrest := fun y hy ↦ hstack y (List.mem_cons_of_mem x hy)
    rw [popSearched]
    split
    · exact ⟨hx, hrest⟩
    · exact (ih hrest _).imp_left hx.trans

theorem mem_stack_of_closesComponent (h : closesComponent s w m = true) : m ∈ w.stack := by
  simpa using (Bool.and_eq_true_iff.1 h).2

theorem concludeExecuted_keeps (s : Store) (hw : w.Among K) (m : ModuleId) :
    Keeps K s (concludeExecuted s w m) := by
  unfold concludeExecuted
  split
  · next hclose =>
    have hm := hw.stack m (mem_stack_of_closesComponent hclose)
    obtain ⟨hpop, hrest⟩ := popExecuted_among hm hw.stack s
    have hw' : ({ w with stack := (popExecuted s m w.stack).2.dropWhile fun x ↦
        ((popExecuted s m w.stack).1.status? x).any (·.isSettling) } : EvaluationWalk).Among K :=
      ⟨hw.frames, fun x hx ↦ hrest x ((List.dropWhile_suffix _).subset hx)⟩
    exact .of_among hpop (back_keeps _ hw' m)
  · exact back_keeps s hw m

theorem concludeSearched_keeps (s : Store) (hw : w.Among K) (m : ModuleId) :
    Keeps K s (concludeSearched s w m) := by
  rw [concludeSearched_eq]
  refine .of_among (.holdSearched s m) ?_
  split
  · next hclose =>
    have hm := hw.stack m (mem_stack_of_closesComponent hclose)
    obtain ⟨hpop, hrest⟩ := popSearched_among hm hw.stack (s.holdSearched m)
    exact .of_among hpop
      (back_keeps (w := { w with stack := (popSearched (s.holdSearched m) m w.stack).2 }) _
        ⟨hw.frames, hrest⟩ m)
  · exact back_keeps _ hw m

theorem execute_keeps (s : Store) (hw : w.Among K) (hm : K.has m) : Keeps K s (execute s w m) := by
  unfold execute
  split
  · exact ⟨refl s, hw⟩
  · split
    · exact .of_among (.holdModule s m) (concludeExecuted_keeps _ hw m)
    · split
      · exact ⟨.startAsync s hm, hw⟩
      · exact ⟨refl s, hw⟩

theorem executed_keeps (s : Store) (hw : w.Among K) (m : ModuleId) (capability : Option PromiseId)
    (c : Completion) : Keeps K s (w.executed s m capability c) := by
  unfold executed
  split
  · exact concludeExecuted_keeps s hw m
  · exact .of_among (.settle s _ _) (concludeExecuted_keeps _ hw m)
  · exact ⟨refl s, hw.stack⟩

theorem passed_keeps (s : Store) (hw : w.Among K) (c : Completion) : Keeps K s (w.passed s c) := by
  unfold passed
  split
  · exact ⟨refl s, hw⟩
  · exact ⟨refl s, hw.stack⟩

theorem push_keeps (hs : s.Holds K) (hw : w.Among K) (hm : K.has m) (t : Traversal) :
    Keeps K s ((push s w m t).1, .go (push s w m t).2) := by
  refine ⟨.modify s m fun r _ ↦ ⟨rfl, rfl, rfl, .inr ⟨hm, ?_⟩, .inr hm, fun p hp ↦ ?_, .inl rfl⟩,
    ?_, ?_⟩
  · cases t <;> exact nofun
  · simp only [SourceText.entered] at hp
    split at hp
    · exact .inl hp
    · exact absurd hp List.not_mem_nil
  · exact List.forall_mem_cons.2 ⟨⟨hm, hs.asks m⟩, hw.frames⟩
  · exact List.forall_mem_cons.2 ⟨hm, hw.stack⟩

theorem arrive_keeps (hs : s.Holds K) (hw : w.Among K) (hm : K.has m) (t : Traversal) :
    Keeps K s (arrive s w m t) := by
  unfold arrive
  split
  · exact ⟨refl s, hw⟩
  · split
    · exact ⟨refl s, hw.stack⟩
    · refine .of_among ?_ (back_keeps _ hw m)
      split
      · exact detach_among s w hm
      · exact refl s
    · exact push_keeps hs hw hm _

/-- A walk stays in scope. -/
theorem advance_keeps (hs : s.Holds K) (hw : w.Among K) : Keeps K s (w.advance s) := by
  have hrest : ∀ {f : EvaluationFrame} {rest}, w.frames = f :: rest →
      K.has f.module ∧ (∀ r ∈ f.requests, K.asks f.module r) ∧
        ∀ f' ∈ rest, K.has f'.module ∧ ∀ r ∈ f'.requests, K.asks f'.module r := by
    intro f rest hf
    have hall := hw.frames
    rw [hf, List.forall_mem_cons] at hall
    exact ⟨hall.1.1, hall.1.2, hall.2⟩
  unfold advance
  split
  · exact ⟨refl s, trivial⟩
  · next m rest hf =>
    obtain ⟨hm, -, hw'⟩ := hrest hf
    exact execute_keeps (w := { w with frames := rest }) s ⟨hw', hw.stack⟩ hm
  · next m rest hf =>
    exact concludeSearched_keeps (w := { w with frames := rest }) s ⟨(hrest hf).2.2, hw.stack⟩ m
  · next m t r requests rest hf =>
    obtain ⟨hm, hasks, hw'⟩ := hrest hf
    rw [List.forall_mem_cons] at hasks
    have hgo : ({ w with frames := ⟨m, t, requests⟩ :: rest } : EvaluationWalk).Among K :=
      ⟨List.forall_mem_cons.2 ⟨⟨hm, hasks.2⟩, hw'⟩, hw.stack⟩
    dsimp only
    split
    · next d hd => exact arrive_keeps hs hgo (hs.imports m r d hm hasks.1 hd) _
    · exact ⟨refl s, hgo⟩

end EvaluationWalk

/-! ## Walks that link -/

/-- The modules of the walk are in scope, and the requests that it has not come to. -/
structure LinkWalk.Among (w : LinkWalk) (K : Scope) : Prop where
  frames : ∀ f ∈ w.frames, K.has f.module ∧ ∀ r ∈ f.requests, K.asks f.module r
  stack : ∀ x ∈ w.stack, K.has x

theorem LinkWalk.Among.mono {w : LinkWalk} (h : w.Among K) (hK : K.Within K') : w.Among K' :=
  ⟨fun f hf ↦ ⟨hK.has _ (h.frames f hf).1, fun r hr ↦ hK.asks _ r ((h.frames f hf).2 r hr)⟩,
    fun x hx ↦ hK.has x (h.stack x hx)⟩

/-- What a walk comes to next is in scope. -/
def LinkStep.Among (K : Scope) : LinkStep → Prop
  | .done => True
  | .failed _ stack => ∀ x ∈ stack, K.has x
  | .go w | .setUp _ w => w.Among K

namespace LinkWalk

open Store.Among (refl still)

variable {s : Store} {w : LinkWalk} {m : ModuleId}

theorem enter_among (hs : s.Knows K) (hw : w.Among K) (m : ModuleId) :
    s.Among K (enter s w m).1 ∧ ∀ w' ∈ (enter s w m).2, w'.Among K := by
  unfold enter
  split
  · next hm =>
    obtain ⟨r, hr, hst⟩ := Store.source?_of_status? hm
    have hk : K.has m := hs.old m r hr (by rw [hst]; decide)
    refine ⟨.trans (.setStatus s hk (by decide : Status.linking ≠ .new)) (.setDfsIndex _ hk _),
      fun w' hw' ↦ ?_⟩
    obtain rfl := Option.mem_some.1 hw'
    exact ⟨List.forall_mem_cons.2 ⟨⟨hk, hs.asks m⟩, hw.frames⟩,
      List.forall_mem_cons.2 ⟨hk, hw.stack⟩⟩
  · exact ⟨refl s, nofun⟩

theorem leave_among (s : Store) (hm : K.has m) (required : ModuleId) :
    s.Among K (leave s m required) := by
  unfold leave
  split
  · split
    · exact .lowerAncestor s hm _
    · exact refl s
  · exact refl s

theorem popComponent_among {stack : List ModuleId} (hstack : ∀ x ∈ stack, K.has x)
    (s : Store) (root : ModuleId) :
    s.Among K (popComponent s root stack).1 ∧ ∀ x ∈ (popComponent s root stack).2, K.has x := by
  induction stack generalizing s with
  | nil => exact ⟨refl s, nofun⟩
  | cons x stack ih =>
    have hx : s.Among K (s.setStatus x .linked) :=
      .setStatus s (hstack x List.mem_cons_self) (by decide)
    have hrest := fun y hy ↦ hstack y (List.mem_cons_of_mem x hy)
    rw [popComponent]
    split
    · exact ⟨hx, hrest⟩
    · exact (ih hrest _).imp_left hx.trans

theorem conclude_among (s : Store) (hw : w.Among K) (m : ModuleId) :
    s.Among K (conclude s w m).1 ∧ (conclude s w m).2.Among K := by
  have hpop : s.Among K (if s.isComponentRoot m then popComponent s m w.stack else (s, w.stack)).1 ∧
      ∀ x ∈ (if s.isComponentRoot m then popComponent s m w.stack else (s, w.stack)).2, K.has x := by
    split
    · exact popComponent_among hw.stack s m
    · exact ⟨refl s, hw.stack⟩
  unfold conclude
  split
  next s' stack heq =>
  rw [heq] at hpop
  refine ⟨hpop.1.trans ?_, hw.frames, hpop.2⟩
  dsimp only
  split
  · next parent rest hf => exact leave_among _ (hw.frames parent (hf ▸ List.mem_cons_self)).1 m
  · exact refl _

theorem advance_among (hs : s.Knows K) (hw : w.Among K) :
    s.Among K (w.advance s).1 ∧ (w.advance s).2.Among K := by
  unfold advance
  split
  · exact ⟨refl s, trivial⟩
  · next m rest hf =>
    have hframes := hw.frames
    rw [hf, List.forall_mem_cons] at hframes
    have hinit := s.initializeEnvironment_furnishing m
    have henv : ∀ x, ¬K.has x →
        (s.initializeEnvironment m).2.environment? x = s.environment? x := fun x hx ↦
      s.environment?_initializeEnvironment fun heq ↦ hx (heq ▸ hframes.1.1)
    split <;> next heq => rw [heq] at hinit henv; first
      | exact ⟨.furnish hinit henv, hframes.2, hw.stack⟩
      | exact ⟨.furnish hinit henv, hw.stack⟩
  · next m r requests rest hf =>
    have hframes := hw.frames
    rw [hf, List.forall_mem_cons, List.forall_mem_cons] at hframes
    obtain ⟨⟨hm, -, hasks⟩, hrest⟩ := hframes
    have hgo : ({ w with frames := ⟨m, requests⟩ :: rest } : LinkWalk).Among K :=
      ⟨List.forall_mem_cons.2 ⟨⟨hm, hasks⟩, hrest⟩, hw.stack⟩
    dsimp only
    split
    · exact ⟨refl s, hgo⟩
    · next d _ =>
      have henter := enter_among hs hgo d
      split <;> next heq => rw [heq] at henter; first
        | exact ⟨henter.1, henter.2 _ rfl⟩
        | exact ⟨henter.1.trans (leave_among _ hm d), hgo⟩

end LinkWalk

theorem Store.Among.unlink (s : Store) {stack : List ModuleId} (hstack : ∀ x ∈ stack, K.has x) :
    s.Among K (s.unlink stack) :=
  foldl (f := fun s m ↦ s.setStatus m .unlinked)
    (fun s m hm ↦ setStatus s (hstack m hm) (by decide)) s

end EcmaModules
