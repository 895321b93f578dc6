import EcmaModules.Proofs.Smooth

/-!
# Which modules are evaluated

A deferred request is no reason to execute a module. But a module that awaits is executed as soon as it
is found behind one, and so are the steps of a synthetic module. Whatever else is found there is
searched, to be executed later perhaps.

As of a collector that marks what is reachable, two things are to be shown of walks. They execute nothing
that is not needed, and search nothing that is not behind what is needed. And when they are through with
a module, they have come to all that it requests, to execute it or to search it as the case may be.
Neither depends on the graph, but in the runs at hand nothing fails and nothing is read that would have
to be evaluated first.
-/

namespace EcmaModules

open EvaluationWalk (await detach push nextTraversal)

/-! ## What is needed -/

namespace Store

/-- The module is evaluated even if it is found behind a deferred request only. -/
def Urgent (s : Store) (x : ModuleId) : Prop := (s.entries x).awaits = true ∨ s.source? x = none

/-- The modules that have to be evaluated so that some can be: these, what one of them requests to be
evaluated, and behind what one of them requests deferred, what is urgent. -/
inductive Needed (s : Store) (R : ModuleId → Prop) : ModuleId → Prop where
  | root {m : ModuleId} : R m → Needed s R m
  | evaluation {m d : ModuleId} {q : Request} :
      Needed s R m → q ∈ (s.entries m).requests → q.phase = .evaluation →
      s.imported? m q = some d → Needed s R d
  | deferred {m d x : ModuleId} {q : Request} :
      Needed s R m → q ∈ (s.entries m).requests → q.phase = .defer →
      s.imported? m q = some d → s.Reaches d x → s.Urgent x → Needed s R x

/-- The module is found behind a deferred request of a module that is needed. -/
def Behind (s : Store) (R : ModuleId → Prop) (x : ModuleId) : Prop :=
  ∃ m q d, s.Needed R m ∧ q ∈ (s.entries m).requests ∧ q.phase = .defer ∧
    s.imported? m q = some d ∧ s.Reaches d x

/-- There is reason to come to the module in the traversal. -/
def Wanted (s : Store) (R : ModuleId → Prop) : Traversal → ModuleId → Prop
  | .executing => s.Needed R
  | .searching => s.Behind R

/-- An evaluation was started at the module. -/
def Called (s : Store) (m : ModuleId) : Prop := (s.capability? m).isSome

theorem Called.source {s : Store} {m : ModuleId} (h : s.Called m) : ∃ r, s.source? m = some r := by
  rcases hm : s.source? m with _ | r
  · simp [Called, capability?, hm] at h
  · exact ⟨r, rfl⟩

/-- The stores have the same modules with the same requests, which lead to the same modules. -/
structure SameMap (s s' : Store) : Prop extends s.SameGraph s' where
  source : ∀ x, s'.source? x = none ↔ s.source? x = none

variable {s s' : Store} {R R' : ModuleId → Prop} {m d x : ModuleId} {q : Request} {t : Traversal}

theorem Behind.needed (h : s.Behind R x) (hx : s.Urgent x) : s.Needed R x := by
  obtain ⟨m, q, d, hm, hq, hphase, hd, hdx⟩ := h
  exact .deferred hm hq hphase hd hdx hx

theorem Behind.request (h : s.Behind R x) (hxd : s.Requests x d) : s.Behind R d := by
  obtain ⟨m, q, e, hm, hq, hphase, he, hex⟩ := h
  exact ⟨m, q, e, hm, hq, hphase, he, hex.tail hxd⟩

/-- The reason for coming to a module is passed on to what it requests. -/
theorem Wanted.request (h : s.Wanted R t m) (hq : q ∈ (s.entries m).requests)
    (hd : s.imported? m q = some d) : s.Wanted R (nextTraversal t q) d := by
  cases t with
  | searching => exact Behind.request h ⟨q, hq, hd⟩
  | executing =>
    cases hphase : q.phase with
    | evaluation =>
      simp only [nextTraversal, hphase]
      exact .evaluation h hq hphase hd
    | defer =>
      simp only [nextTraversal, hphase]
      exact ⟨m, q, d, h, hq, hphase, hd, .refl⟩

/-- What is urgent is needed if there is any reason to come to it. -/
theorem Wanted.urgent (h : s.Wanted R t x) (hx : s.Urgent x) : s.Needed R x := by
  cases t with
  | executing => exact h
  | searching => exact Behind.needed h hx

/-- What is needed stays so when evaluations are started at more modules. -/
theorem Needed.mono (h : s.Needed R x) (hR : ∀ x, R x → R' x) : s.Needed R' x := by
  induction h with
  | root hm => exact .root (hR _ hm)
  | evaluation _ hq hphase hd ih => exact .evaluation ih hq hphase hd
  | deferred _ hq hphase hd hreaches hx ih => exact .deferred ih hq hphase hd hreaches hx

theorem Wanted.mono (h : s.Wanted R t x) (hR : ∀ x, R x → R' x) : s.Wanted R' t x := by
  cases t with
  | executing => exact Needed.mono h hR
  | searching =>
    obtain ⟨m, q, d, hm, hq, hphase, hd, hdx⟩ := h
    exact ⟨m, q, d, Needed.mono hm hR, hq, hphase, hd, hdx⟩

theorem SameMap.refl (s : Store) : s.SameMap s := ⟨⟨fun _ ↦ rfl, fun _ _ ↦ rfl⟩, fun _ ↦ Iff.rfl⟩

theorem SameMap.trans {s'' : Store} (h : s.SameMap s') (h' : s'.SameMap s'') : s.SameMap s'' :=
  ⟨⟨fun x ↦ (h'.entries x).trans (h.entries x), h.imports.trans h'.imports⟩,
    fun x ↦ (h'.source x).trans (h.source x)⟩

end Store

/-! ## What walks have come to -/

/-- The traversal in which walks have come to a module with the status, if they have. -/
def Status.traversal (s : Status) : Traversal := if s.isOpen then .searching else .executing

@[simp] theorem Traversal.isEntered_status (t : Traversal) : t.status.isEntered = true := by
  cases t <;> rfl

@[simp] theorem Traversal.traversal_status (t : Traversal) : t.status.traversal = t := by
  cases t <;> rfl

/-- A walk has come to the module in the traversal, or to execute it. -/
structure SourceText.Visited (t : Traversal) (r : SourceText) : Prop where
  entered : r.status.isEntered = true
  executed : t = .executing ∨ r.entries.awaits = true → r.status.traversal = .executing

/-- Whether a walk has come to the module, and what for, is as before. -/
structure SourceText.Tarries (r r' : SourceText) : Prop where
  entries : r'.entries = r.entries
  isOpen : r'.status.isOpen = r.status.isOpen
  isSearched : r'.status.isSearched = r.status.isSearched

namespace SourceText

variable {r r' r'' : SourceText} {t t' : Traversal}

theorem Tarries.of_status (he : r'.entries = r.entries) (hs : r'.status = r.status) : r.Tarries r' :=
  ⟨he, by rw [hs], by rw [hs]⟩

theorem Tarries.refl (r : SourceText) : r.Tarries r := .of_status rfl rfl

theorem Tarries.trans (h : r.Tarries r') (h' : r'.Tarries r'') : r.Tarries r'' :=
  ⟨h'.entries.trans h.entries, h'.isOpen.trans h.isOpen, h'.isSearched.trans h.isSearched⟩

theorem Abides.tarries (h : r.Abides r') : r.Tarries r' := ⟨h.entries, h.isOpen, h.isSearched⟩

theorem Tarries.isEntered (h : r.Tarries r') : r'.status.isEntered = r.status.isEntered := by
  rw [Status.isEntered, Status.isEntered, h.isOpen, h.isSearched]

theorem Tarries.traversal (h : r.Tarries r') : r'.status.traversal = r.status.traversal := by
  rw [Status.traversal, Status.traversal, h.isOpen]

theorem Visited.tarries (h : r.Visited t) (hr : r.Tarries r') : r'.Visited t := by
  refine ⟨hr.isEntered.trans h.entered, fun ht ↦ hr.traversal.trans (h.executed ?_)⟩
  rwa [hr.entries] at ht

/-- A walk passes by modules that it has come to before. -/
theorem visited_of_pass (h : r.arrival t = .pass) : r.Visited t := by
  constructor
  all_goals
    unfold arrival SourceText.traversal at h
    cases hs : r.status <;> cases t <;> cases hw : r.entries.awaits <;>
      cases he : r.evaluationError <;>
      simp_all [Status.isEntered, Status.isOpen, Status.isSearched, Status.traversal]

/-- A module that walks have come to before is entered only to be executed. -/
theorem executing_of_enter (h : r.arrival t = .enter t') (hr : r.status.isEntered = true) :
    t' = .executing := by
  obtain ⟨-, hstatus⟩ := arrival_eq_enter h
  cases hs : r.status <;>
    simp_all [Status.outline, Status.isEntered, Status.isOpen, Status.isSearched]

/-- A module that does not await is entered in the traversal in which the walk comes to it. -/
theorem eq_of_enter (h : r.arrival t = .enter t') (hw : r.entries.awaits = false) : t' = t := by
  have hkeep : r.traversal t = t := by simp [SourceText.traversal, hw]
  unfold arrival at h
  rw [hkeep] at h
  cases t <;> cases hs : r.status <;> cases he : r.evaluationError <;> simp_all

theorem visited_of_enter (h : r.arrival t = .enter t') (i : Nat) : (r.entered t' i).Visited t := by
  refine ⟨Traversal.isEntered_status t', fun hor ↦ (Traversal.traversal_status t').trans ?_⟩
  rcases hor with rfl | hw
  · exact traversal_of_enter h
  · exact (arrival_eq_enter h).1 hw

end SourceText

namespace Store

/-- A walk has come to the module in the traversal, or to execute it, unless it is synthetic. -/
def Visited (s : Store) (t : Traversal) (d : ModuleId) : Prop := ∀ r, s.source? d = some r → r.Visited t

/-- Whether walks have come to modules, and what for, is as before. -/
structure Tarries (s s' : Store) : Prop where
  each : s.Each SourceText.Tarries s'
  imports : SameImports s s'
  capability : ∀ x, s'.capability? x = s.capability? x

namespace Tarries

variable {s s' s'' : Store} {m d x : ModuleId} {t : Traversal} {r : SourceText}

theorem entries_of_each (h : s.Each SourceText.Tarries s') (x : ModuleId) :
    s'.entries x = s.entries x := by
  have hx := h x
  unfold Store.entries
  revert hx
  cases s.source? x <;> cases s'.source? x <;> rintro ⟨⟩
  · rfl
  · next hr => exact hr.entries

theorem sameMap_of_each (h : s.Each SourceText.Tarries s') (hi : SameImports s s') : s.SameMap s' := by
  refine ⟨⟨entries_of_each h, hi⟩, fun x ↦ ?_⟩
  have hx := h x
  revert hx
  cases s.source? x <;> cases s'.source? x <;> rintro ⟨⟩ <;> simp

theorem sameMap (h : s.Tarries s') : s.SameMap s' := sameMap_of_each h.each h.imports

theorem trans (h : s.Tarries s') (h' : s'.Tarries s'') : s.Tarries s'' :=
  ⟨Each.trans (fun _ _ _ ↦ .trans) h.each h'.each, h.imports.trans h'.imports,
    fun x ↦ (h'.capability x).trans (h.capability x)⟩

theorem of_abides (h : s.Abides s') : s.Tarries s' :=
  ⟨h.each.mono fun _ _ ↦ SourceText.Abides.tarries, h.imports, h.capability⟩

theorem refl (s : Store) : s.Tarries s := of_abides (.refl s)

theorem modifySource (s : Store) (m : ModuleId) {f : SourceText → SourceText}
    (hf : ∀ r : SourceText, r.Tarries (f r) ∧ (f r).loaded = r.loaded ∧ (f r).capability = r.capability) :
    s.Tarries (s.modifySource m f) :=
  ⟨Each.modifySource .refl s m fun r _ ↦ (hf r).1, .modifySource s m fun r ↦ (hf r).2.1,
    capability?_of_each <| Each.modifySource (R := fun r r' ↦ r'.capability = r.capability)
      (fun _ ↦ rfl) s m fun r _ ↦ (hf r).2.2⟩

theorem lowerAncestor (s : Store) (m : ModuleId) (i : Nat) : s.Tarries (s.lowerAncestor m i) :=
  modifySource s m fun _ ↦ ⟨.of_status rfl rfl, rfl, rfl⟩

theorem await (s : Store) (m d : ModuleId) : s.Tarries (EvaluationWalk.await s m d) := by
  rcases EvaluationWalk.await_cases s m d with heq | ⟨_, _, _, _, _, _, heq⟩
  · rw [heq]
    exact refl s
  · rw [heq]
    refine (modifySource s m fun _ ↦ ?_).trans (modifySource _ d fun _ ↦ ?_)
    all_goals exact ⟨.of_status rfl rfl, rfl, rfl⟩

theorem completeMembers (s : Store) (root : ModuleId) (ms : List ModuleId) :
    s.Tarries (s.completeMembers root ms) := by
  induction ms generalizing s with
  | nil => exact refl s
  | cons m ms ih =>
    have hmember : s.Tarries (EvaluationWalk.completeMember s root m) :=
      modifySource s m fun r ↦ ⟨(SourceText.Abides.complete root r).tarries, rfl, rfl⟩
    exact hmember.trans (ih _)

theorem visited (h : s.Tarries s') (hd : s.Visited t d) : s'.Visited t d := by
  intro r' hr'
  obtain ⟨r, hr, htarries⟩ := h.each.before hr'
  exact (hd r hr).tarries htarries

theorem called (h : s.Tarries s') : s'.Called x ↔ s.Called x := by rw [Called, Called, h.capability]

end Tarries

end Store

theorem EvaluationWalk.capability?_push (s : Store) (w : EvaluationWalk) (d : ModuleId) (t : Traversal)
    (x : ModuleId) : (push s w d t).1.capability? x = s.capability? x := by
  refine Store.capability?_of_each ?_ x
  exact Store.Each.modifySource (R := fun r r' ↦ r'.capability = r.capability) (fun _ ↦ rfl) s d
    fun _ _ ↦ rfl

/-! ## The invariant -/

/-- The walk has not followed the request of the module yet, or is just following it. -/
def Tour.Owes (τ : Tour) (x : ModuleId) (q : Request) (t : Traversal) (d : ModuleId) : Prop :=
  (∃ f ∈ τ.walk.frames, f.module = x ∧ q ∈ f.requests) ∨ τ.stance = .coming d t

/-- In the graph of a store, walks have come to what there is reason to come to, and to nothing else,
when evaluations are called for at some modules. -/
structure Scene.Extends (s₀ : Store) (R : ModuleId → Prop) (S : Scene) : Prop where
  map : s₀.SameMap S.store
  wanted : ∀ x r, S.store.source? x = some r → r.status.isEntered = true →
    s₀.Wanted R r.status.traversal x
  coming : ∀ τ ∈ S.tours, ∀ d t, τ.stance = .coming d t → s₀.Wanted R t d
  followed : ∀ x r, S.store.source? x = some r → r.status.isEntered = true →
    ∀ q ∈ (s₀.entries x).requests, ∀ d, s₀.imported? x q = some d →
      S.store.Visited (nextTraversal r.status.traversal q) d ∨
        ∃ τ ∈ S.tours, τ.Owes x q (nextTraversal r.status.traversal q) d
  called : ∀ x, S.store.Called x → R x ∧
    (S.store.Visited .executing x ∨ ∃ τ ∈ S.tours, τ.stance = .coming x .executing)

namespace Scene.Extends

variable {s₀ s s' : Store} {R R' : ModuleId → Prop} {τ τ' : Tour} {T T' : List Tour}
  {F F' X X' G G' : List ModuleId} {J J' : List Job} {H H' : List Event} {goal : EvaluationGoal}
  {st st' : Stance} {w w' : EvaluationWalk} {m d x : ModuleId} {q : Request} {t t' : Traversal}
  {r : SourceText}

/-- Evaluation is called for at more modules. -/
theorem mono {S : Scene} (h : S.Extends s₀ R) (hR : ∀ x, R x → R' x) : S.Extends s₀ R' where
  map := h.map
  wanted x r hr hentered := (h.wanted x r hr hentered).mono hR
  coming τ hτ d t hst := (h.coming τ hτ d t hst).mono hR
  followed := h.followed
  called x hx := (h.called x hx).imp_left (hR x)

/-- Walks go on without coming to modules that they have not come to before. -/
theorem keep (h : Extends s₀ R ⟨s, T, F, X, G, J, H⟩) (hs : s.Tarries s')
    (hcoming : ∀ τ' ∈ T', ∀ d t, τ'.stance = .coming d t → s₀.Wanted R t d)
    (hframes : ∀ τ ∈ T, ∀ f ∈ τ.walk.frames, ∀ q ∈ f.requests, ∀ r d,
      s.source? f.module = some r → s₀.imported? f.module q = some d →
        ∃ τ' ∈ T', τ'.Owes f.module q (nextTraversal r.status.traversal q) d)
    (hstance : ∀ τ ∈ T, ∀ d t, τ.stance = .coming d t →
      s.Visited t d ∨ ∃ τ' ∈ T', τ'.stance = .coming d t) :
    Extends s₀ R ⟨s', T', F', X', G', J', H'⟩ where
  map := h.map.trans hs.sameMap
  wanted x r' hr' hentered := by
    obtain ⟨r, hr, htarries⟩ := hs.each.before hr'
    rw [htarries.traversal]
    exact h.wanted x r hr (htarries.isEntered.symm.trans hentered)
  coming := hcoming
  followed x r' hr' hentered q hq d hd := by
    obtain ⟨r, hr, htarries⟩ := hs.each.before hr'
    rw [htarries.traversal]
    rcases h.followed x r hr (htarries.isEntered.symm.trans hentered) q hq d hd with
      hvisited | ⟨τ, hτ, ⟨f, hf, rfl, hqf⟩ | hst⟩
    · exact .inl (hs.visited hvisited)
    · exact .inr (hframes τ hτ f hf q hqf r d hr hd)
    · refine (hstance τ hτ d _ hst).imp hs.visited ?_
      rintro ⟨τ', hτ', hst'⟩
      exact ⟨τ', hτ', .inr hst'⟩
  called x hx := by
    obtain ⟨hR, hvisited | ⟨τ, hτ, hst⟩⟩ := h.called x (hs.called.1 hx)
    · exact ⟨hR, .inl (hs.visited hvisited)⟩
    · exact ⟨hR, (hstance τ hτ x _ hst).imp_left hs.visited⟩

/-- Walks stay where they are. -/
theorem still (h : Extends s₀ R ⟨s, T, F, X, G, J, H⟩) (hs : s.Tarries s') :
    Extends s₀ R ⟨s', T, F', X', G', J', H'⟩ :=
  h.keep hs h.coming (fun τ hτ f hf _ hq _ _ _ _ ↦ ⟨τ, hτ, .inl ⟨f, hf, rfl, hq⟩⟩)
    fun τ hτ _ _ hst ↦ .inr ⟨τ, hτ, hst⟩

/-- The walk is done with what it had come to. It may leave a module all of whose requests it has
followed. -/
theorem walk (h : Extends s₀ R ⟨s, ⟨goal, st, w⟩ :: T, F, X, G, J, H⟩) (hs : s.Tarries s')
    (hst' : ∀ d t, st' ≠ .coming d t) (hst : ∀ d t, st = .coming d t → s.Visited t d)
    (hframes : ∀ f ∈ w.frames, f.requests = [] ∨ f ∈ w'.frames) :
    Extends s₀ R ⟨s', ⟨goal, st', w'⟩ :: T, F', X', G', J', H'⟩ := by
  obtain ⟨-, hcoming⟩ := List.forall_mem_cons.1 h.coming
  refine h.keep hs ?_ ?_ ?_
  · exact List.forall_mem_cons.2 ⟨fun d t heq ↦ absurd heq (hst' d t), hcoming⟩
  · refine List.forall_mem_cons.2 ⟨fun f hf q hq r d _ _ ↦ ?_, fun τ hτ f hf q hq r d _ _ ↦ ?_⟩
    · rcases hframes f hf with hnil | hf'
      · rw [hnil] at hq
        exact absurd hq List.not_mem_nil
      · exact ⟨_, List.mem_cons_self, .inl ⟨f, hf', rfl, hq⟩⟩
    · exact ⟨τ, List.mem_cons_of_mem _ hτ, .inl ⟨f, hf, rfl, hq⟩⟩
  · refine List.forall_mem_cons.2 ⟨fun d t heq ↦ .inl (hst d t heq), fun τ hτ d t heq ↦ ?_⟩
    exact .inr ⟨τ, List.mem_cons_of_mem _ hτ, heq⟩

/-- The walk is over. -/
theorem done (h : Extends s₀ R ⟨s, ⟨goal, .here, w⟩ :: T, F, X, G, J, H⟩) (hs : s.Tarries s')
    (hf : w.frames = []) : Extends s₀ R ⟨s', T, F', X', G', J', H'⟩ := by
  obtain ⟨-, hcoming⟩ := List.forall_mem_cons.1 h.coming
  refine h.keep hs hcoming ?_ ?_
  · refine List.forall_mem_cons.2 ⟨fun f hmem ↦ ?_, fun τ hτ f hf q hq r d _ _ ↦ ?_⟩
    · exact absurd (hf ▸ hmem : f ∈ []) List.not_mem_nil
    · exact ⟨τ, hτ, .inl ⟨f, hf, rfl, hq⟩⟩
  · exact List.forall_mem_cons.2 ⟨nofun, fun τ hτ d t heq ↦ .inr ⟨τ, hτ, heq⟩⟩

/-- The walk follows a request. -/
theorem request {rs : List Request} {rest : List EvaluationFrame}
    (h : Extends s₀ R ⟨s, ⟨goal, .here, w⟩ :: T, F, X, G, J, H⟩)
    (hs : Sound s.outline (⟨goal, .here, w⟩ :: T) F X G H)
    (hf : w.frames = ⟨m, t, q :: rs⟩ :: rest) (hq : q ∈ (s.entries m).requests)
    (hd : s.imported? m q = some d) :
    Extends s₀ R ⟨s, ⟨goal, .coming d (nextTraversal t q), { w with frames := ⟨m, t, rs⟩ :: rest }⟩ :: T,
      F, X, G, J, H⟩ := by
  obtain ⟨r, hr, hstatus, -⟩ := hs.lawful_top hf
  have htraversal : r.status.traversal = t := by rw [hstatus, Traversal.traversal_status]
  have hwanted : s₀.Wanted R t m := by
    have := h.wanted m r hr (by rw [hstatus, Traversal.isEntered_status])
    rwa [htraversal] at this
  have hq₀ : q ∈ (s₀.entries m).requests := h.map.entries m ▸ hq
  have hd₀ : s₀.imported? m q = some d := (h.map.imports m q).symm.trans hd
  obtain ⟨-, hcoming⟩ := List.forall_mem_cons.1 h.coming
  refine h.keep (.refl s) ?_ ?_ ?_
  · refine List.forall_mem_cons.2 ⟨fun d' t' heq ↦ ?_, hcoming⟩
    obtain ⟨rfl, rfl⟩ := Stance.coming.inj heq
    exact hwanted.request hq₀ hd₀
  · refine List.forall_mem_cons.2 ⟨fun f hmem q' hq' r' d' hr' hd' ↦ ?_,
      fun τ hτ f hf q' hq' r' d' _ _ ↦ ⟨τ, List.mem_cons_of_mem _ hτ, .inl ⟨f, hf, rfl, hq'⟩⟩⟩
    refine ⟨_, List.mem_cons_self, ?_⟩
    rcases List.mem_cons.1 (hf ▸ hmem : f ∈ _ :: rest) with rfl | hrest
    · rcases List.mem_cons.1 hq' with rfl | hq'
      · obtain rfl := Option.some.inj (hr.symm.trans hr')
        obtain rfl := Option.some.inj (hd₀.symm.trans hd')
        exact .inr (by rw [htraversal])
      · exact .inl ⟨_, List.mem_cons_self, rfl, hq'⟩
    · exact .inl ⟨f, List.mem_cons_of_mem _ hrest, rfl, hq'⟩
  · exact List.forall_mem_cons.2 ⟨nofun, fun τ hτ d' t' heq ↦ .inr ⟨τ, List.mem_cons_of_mem _ hτ, heq⟩⟩

/-- What a walk enters there was reason to come to in the traversal in which it does. -/
theorem wanted_of_enter (h : Extends s₀ R ⟨s, ⟨goal, .coming d t, w⟩ :: T, F, X, G, J, H⟩)
    (hd : s.source? d = some r) (ha : r.arrival t = .enter t') : s₀.Wanted R t' d := by
  have hcoming := h.coming _ List.mem_cons_self d t rfl
  by_cases hw : r.entries.awaits = true
  · obtain rfl := (SourceText.arrival_eq_enter ha).1 hw
    refine hcoming.urgent (.inl ?_)
    rw [← h.map.entries d]
    simpa [Store.entries, hd] using hw
  · rwa [SourceText.eq_of_enter ha (by simpa using hw)]

/-- The walk enters the module that it comes to. -/
theorem enter (h : Extends s₀ R ⟨s, ⟨goal, .coming d t, w⟩ :: T, F, X, G, J, H⟩)
    (hd : s.source? d = some r) (ha : r.arrival t = .enter t') :
    Extends s₀ R ⟨(push s w d t').1, ⟨goal, .here, (push s w d t').2⟩ :: T, F, X, G, J, H⟩ := by
  have hsource := s.source?_modifySource d (·.entered t' w.index)
  have hself : (push s w d t').1.source? d = some (r.entered t' w.index) := by
    rw [push, hsource, if_pos rfl, hd]
    rfl
  have hother : ∀ x, x ≠ d → (push s w d t').1.source? x = s.source? x := fun x hx ↦ by
    rw [push, hsource, if_neg hx]
  have hmap : s.SameMap (push s w d t').1 := by
    refine ⟨EvaluationWalk.graph_push s w d t', fun x ↦ ?_⟩
    by_cases hx : x = d
    · rw [hx, hself, hd]
      simp
    · rw [hother x hx]
  have hcapability := EvaluationWalk.capability?_push s w d t'
  have hvisited_self : (push s w d t').1.Visited t d := by
    intro r' hr'
    obtain rfl := Option.some.inj (hself.symm.trans hr')
    exact SourceText.visited_of_enter ha w.index
  have hvisited : ∀ t₀ x, s.Visited t₀ x → (push s w d t').1.Visited t₀ x := by
    intro t₀ x hx
    by_cases hxd : x = d
    · subst hxd
      intro r' hr'
      obtain rfl := Option.some.inj (hself.symm.trans hr')
      obtain rfl := SourceText.executing_of_enter ha (hx r hd).entered
      exact ⟨rfl, fun _ ↦ rfl⟩
    · intro r' hr'
      exact hx r' ((hother x hxd).symm.trans hr')
  obtain ⟨-, hcoming⟩ := List.forall_mem_cons.1 h.coming
  refine ⟨h.map.trans hmap, fun x r' hr' hentered ↦ ?_, ?_, fun x r' hr' hentered q hq e he ↦ ?_,
    fun x hx ↦ ?_⟩
  · by_cases hx : x = d
    · subst hx
      obtain rfl := Option.some.inj (hself.symm.trans hr')
      change Store.Wanted _ _ t'.status.traversal x
      rw [Traversal.traversal_status]
      exact h.wanted_of_enter hd ha
    · exact h.wanted x r' ((hother x hx).symm.trans hr') hentered
  · exact List.forall_mem_cons.2 ⟨by rintro _ _ ⟨⟩, hcoming⟩
  · by_cases hx : x = d
    · -- nothing that it requests has been followed yet
      subst hx
      refine .inr ⟨_, List.mem_cons_self, .inl ⟨_, List.mem_cons_self, rfl, ?_⟩⟩
      exact (h.map.entries x).symm ▸ hq
    · rcases h.followed x r' ((hother x hx).symm.trans hr') hentered q hq e he with
        hbefore | ⟨τ, hτ, howes⟩
      · exact .inl (hvisited _ e hbefore)
      · rcases List.mem_cons.1 hτ with rfl | hτ
        · rcases howes with ⟨f, hf, hfx, hqf⟩ | hst
          · exact .inr ⟨_, List.mem_cons_self, .inl ⟨f, List.mem_cons_of_mem _ hf, hfx, hqf⟩⟩
          · obtain ⟨rfl, heq⟩ := Stance.coming.inj hst
            exact .inl (heq ▸ hvisited_self)
        · exact .inr ⟨τ, List.mem_cons_of_mem _ hτ, howes⟩
  · have hx : s.Called x := by rwa [Store.Called, hcapability] at hx
    obtain ⟨hR, hbefore | ⟨τ, hτ, hst⟩⟩ := h.called x hx
    · exact ⟨hR, .inl (hvisited _ x hbefore)⟩
    · refine ⟨hR, ?_⟩
      rcases List.mem_cons.1 hτ with rfl | hτ
      · obtain ⟨rfl, rfl⟩ := Stance.coming.inj hst
        exact .inl hvisited_self
      · exact .inr ⟨τ, List.mem_cons_of_mem _ hτ, hst⟩

/-- A walk starts. -/
theorem start {root : ModuleId} (h : Extends s₀ R ⟨s, [], F, X, G, J, H⟩) (hroot : R root)
    (p : PromiseId) :
    Extends s₀ R ⟨(s.newCapability root).2, [⟨.promise root p, .coming root .executing, {}⟩],
      F, X, G, J, H⟩ := by
  have heach : s.Each SourceText.Tarries (s.newCapability root).2 :=
    .newCapability .refl fun _ ↦ .of_status rfl rfl
  have himports : SameImports s (s.newCapability root).2 := .of_each <|
    Store.Each.newCapability (fun _ ↦ rfl) fun _ ↦ rfl
  have hvisited : ∀ t x, s.Visited t x → (s.newCapability root).2.Visited t x := fun t x hx r' hr' ↦ by
    obtain ⟨r, hr, htarries⟩ := heach.before hr'
    exact (hx r hr).tarries htarries
  refine ⟨h.map.trans (Store.Tarries.sameMap_of_each heach himports), fun x r' hr' hentered ↦ ?_,
    List.forall_mem_singleton.2 fun d t heq ↦ ?_, fun x r' hr' hentered q hq d hd ↦ ?_, fun x hx ↦ ?_⟩
  · obtain ⟨r, hr, htarries⟩ := heach.before hr'
    rw [htarries.traversal]
    exact h.wanted x r hr (htarries.isEntered.symm.trans hentered)
  · obtain ⟨rfl, rfl⟩ := Stance.coming.inj heq
    exact .root hroot
  · obtain ⟨r, hr, htarries⟩ := heach.before hr'
    rw [htarries.traversal]
    refine (h.followed x r hr (htarries.isEntered.symm.trans hentered) q hq d hd).imp (hvisited _ d) ?_
    rintro ⟨τ, hτ, -⟩
    exact absurd hτ List.not_mem_nil
  · by_cases hxr : x = root
    · exact ⟨hxr ▸ hroot, .inr ⟨_, List.mem_cons_self, by rw [hxr]⟩⟩
    · rw [Store.Called, Store.capability?_newCapability, if_neg hxr] at hx
      obtain ⟨hR, hbefore | ⟨τ, hτ, -⟩⟩ := h.called x hx
      · exact ⟨hR, .inl (hvisited _ x hbefore)⟩
      · exact absurd hτ List.not_mem_nil

end Scene.Extends

/-! ## Moves -/

/-- In runs of the smooth kind, nothing is loaded and no walk starts. -/
def Mode.parked : Mode := { Mode.smooth with loads := fun _ ↦ False, starts := fun _ ↦ False }

theorem Move.smooth {S S' : Scene} (hmove : Move .parked S S') : Move .smooth S S' := by
  cases hmove with
  | aside ha hi => exact .aside ha (hi.imp (fun h ↦ (h.2 : False).elim) id)
  | evaluate _ _ _ hstarts => exact (hstarts : False).elim
  | force h1 h2 h3 h4 h5 hforces => exact (hforces.1 : False).elim
  | unloaded _ _ hskips => exact (hskips : False).elim
  | fail e _ _ hfails => exact (hfails : False).elim
  | failed e _ hfails => exact (hfails : False).elim
  | reject hfails => exact (hfails : False).elim
  | freedError hfails => exact (hfails : False).elim
  | pass hd ha hdetaches => exact .pass hd ha hdetaches
  | enter hd ha hnot hsearches => exact .enter hd ha hnot hsearches
  | leaveOff hf hr hq hlead hqs he => exact .leaveOff hf hr hq hlead hqs he
  | late hst => exact .late hst
  | _ => constructor <;> assumption

/-- The walk on top enters the module that it comes to. -/
inductive Scene.Enters : Scene → Scene → Prop where
  | enter {s : Store} {goal w t t' T F X G J H} {d : ModuleId} {r : SourceText} :
      s.source? d = some r → r.arrival t = .enter t' →
      Enters ⟨s, ⟨goal, .coming d t, w⟩ :: T, F, X, G, J, H⟩
        ⟨(push s w d t').1, ⟨goal, .here, (push s w d t').2⟩ :: T, F, X, G, J, H⟩

section

variable {s₀ : Store} {R : ModuleId → Prop} {S S' : Scene}

/-- Modules are entered by such moves, or else it is as before whether walks have come to them. -/
theorem Move.tarries (hmove : Move .parked S S') (hv : Valid S) :
    S.store.Tarries S'.store ∨ S.Enters S' := by
  have hs := hv.sound
  cases hmove with
  | @aside s s' T F X G J H ha hi =>
    have hi : SameImports s s' := hi.resolve_left And.right
    exact .inl (.of_abides (.of_outline ha.outline hi))
  | evaluate _ _ _ hstarts => exact (hstarts : False).elim
  | force _ _ _ _ _ hf => exact (hf.1 : False).elim
  | unloaded _ _ hskips => exact (hskips : False).elim
  | pass hd ha _ =>
    refine .inl ?_
    dsimp only
    split
    · exact .of_abides (.detach _ _ _)
    · exact .refl _
  | enter hd ha _ _ => exact .inr (.enter hd ha)
  | leaveBack => exact .inl ((Store.Tarries.lowerAncestor _ _ _).trans (.await _ _ _))
  | leaveSearched => exact .inl (.await _ _ _)
  | leaveOff => exact .inl (.await _ _ _)
  | hold => exact .inl (.of_abides (.holdModule _ _))
  | runAsync => exact .inl (.of_abides (.startAsync _ _))
  | search => exact .inl (.of_abides (.holdSearched _ _))
  | pop => exact .inl (.completeMembers _ _ _)
  | done => exact .inl (.of_abides (.finish _ _))
  | fail e _ _ hf => exact (hf : False).elim
  | failed e _ hf => exact (hf : False).elim
  | take => exact .inl (.of_abides (.of_modules rfl))
  | @fulfill s m r H hm hst =>
    obtain ⟨p, hp, -⟩ := hv.ledger.job m (.ok ()) (by simp)
    have hsettling := hs.settling_of_begun ⟨_, hp⟩ hm
    exact .inl (.of_abides (.finishModule hm (Status.isOpen_of_isSettling hsettling)))
  | reject hf => exact (hf : False).elim
  | lessen => exact .inl (.of_abides (.lessen _ _))
  | release => exact .inl (.of_abides (.lessen _ _))
  | pastSearched hm hw hst => exact .inl (.of_abides (.finishSearched hm hst))
  | freeAsync => exact .inl (.of_abides (.startAsync _ _))
  | @freed s m F H =>
    obtain ⟨q, hq, -, hb⟩ := hs.lone m (List.mem_singleton.2 rfl)
    obtain ⟨r, hm, -⟩ := Store.source?_of_outline hq
    have hsettling := hs.settling_of_begun hb hm
    exact .inl (.of_abides (.finishModule hm (Status.isOpen_of_isSettling hsettling)))
  | freedError hf => exact (hf : False).elim
  | _ => exact .inl (.refl _)

/-- Every such move keeps it that walks have come to what there is reason to come to. -/
theorem Move.extends (hmove : Move .parked S S') (hv : Valid S) (hstraight : S.Straight)
    (h : S.Extends s₀ R) : S'.Extends s₀ R := by
  have hleft : ∀ {w : EvaluationWalk} {m : ModuleId} {t : Traversal} {rest : List EvaluationFrame},
      w.frames = ⟨m, t, []⟩ :: rest → ∀ f ∈ w.frames, f.requests = [] ∨ f ∈ rest := fun hf f hmem ↦ by
    rcases List.mem_cons.1 (hf ▸ hmem) with rfl | hmem
    · exact .inl rfl
    · exact .inr hmem
  rcases hmove.tarries hv with ht | henters
  swap
  · cases henters with
    | enter hd ha => exact h.enter hd ha
  cases hmove with
  | evaluate _ _ _ hstarts => exact (hstarts : False).elim
  | force _ _ _ _ _ hf => exact (hf.1 : False).elim
  | request hf hd =>
    refine h.request hv.sound hf ?_ hd
    exact hstraight.course.requests _ (hf ▸ List.mem_cons_self) List.mem_cons_self
  | unloaded _ _ hskips => exact (hskips : False).elim
  | synthetic hd =>
    refine h.walk ht nofun (fun d' t' heq ↦ ?_) fun f hf ↦ .inr hf
    obtain ⟨rfl, rfl⟩ := Stance.coming.inj heq
    exact fun r hr ↦ absurd (hd.symm.trans hr) (by simp)
  | pass hd ha _ =>
    refine h.walk ht nofun (fun d' t' heq ↦ ?_) fun f hf ↦ .inr hf
    obtain ⟨rfl, rfl⟩ := Stance.coming.inj heq
    intro r' hr'
    obtain rfl := Option.some.inj (hd.symm.trans hr')
    exact SourceText.visited_of_pass ha
  | enter hd ha _ _ => exact h.enter hd ha
  | leaveLast => exact h.walk ht nofun nofun fun f hmem ↦ .inr hmem
  | leaveBack hst =>
    refine h.walk ht nofun (fun d' t' heq ↦ ?_) fun f hmem ↦ .inr hmem
    rcases hst with rfl | ⟨rfl, -⟩ <;> exact nomatch heq
  | leaveSearched hst =>
    refine h.walk ht nofun (fun d' t' heq ↦ ?_) fun f hmem ↦ .inr hmem
    rcases hst with rfl | ⟨rfl, -⟩ <;> exact nomatch heq
  | leaveOff => exact h.walk ht nofun nofun fun f hmem ↦ .inr hmem
  | hold hf => exact h.walk ht nofun nofun (hleft hf)
  | run hf => exact h.walk ht nofun nofun (hleft hf)
  | runAsync hf => exact h.walk ht nofun nofun (hleft hf)
  | search hf => exact h.walk ht nofun nofun (hleft hf)
  | ended => exact h.walk ht nofun nofun fun f hmem ↦ .inr hmem
  | pop => exact h.walk ht nofun nofun fun f hmem ↦ .inr hmem
  | done hf => exact h.done ht hf
  | fail e _ _ hf => exact (hf : False).elim
  | _ => exact h.still ht

/-- Nor do they make promises of evaluations. -/
theorem Move.capability? (hmove : Move .parked S S') (hv : Valid S) (x : ModuleId) :
    S'.store.capability? x = S.store.capability? x := by
  rcases hmove.tarries hv with ht | henters
  · exact ht.capability x
  · cases henters with
    | enter hd ha => exact EvaluationWalk.capability?_push _ _ _ _ x

/-- If no walk is under way, none is afterwards. -/
theorem Move.tours_eq_nil (hmove : Move .parked S S') (h : S.tours = []) : S'.tours = [] := by
  cases hmove with
  | evaluate _ _ _ hstarts => exact (hstarts : False).elim
  | force _ _ _ _ _ hf => exact (hf.1 : False).elim
  | _ => first | exact h | rfl | exact nomatch h

/-- What such moves keep. -/
theorem Moves.extends (hmoves : Moves .parked S S') (hv : Valid S) (hs : S.Straight)
    (h : S.Extends s₀ R) : S'.Extends s₀ R ∧ ∀ x, S'.store.capability? x = S.store.capability? x := by
  have hsmooth : ∀ {S''}, Moves .parked S S'' → Moves .smooth S S'' := fun h ↦
    Relation.ReflTransGen.mono (fun _ _ ↦ Move.smooth) _ _ h
  induction hmoves with
  | refl => exact ⟨h, fun _ ↦ rfl⟩
  | tail hmoves hmove ih =>
    have hvalid := Moves.valid (hsmooth hmoves) hv
    exact ⟨hmove.extends hvalid (Moves.straight (hsmooth hmoves) hv hs) ih.1,
      fun x ↦ (hmove.capability? hvalid x).trans (ih.2 x)⟩

/-- If no walk is under way, it is as before whether walks have come to modules. -/
theorem Moves.tarries (hmoves : Moves .parked S S') (hv : Valid S) (h : S.tours = []) :
    S.store.Tarries S'.store ∧ S'.tours = [] := by
  induction hmoves with
  | refl => exact ⟨.refl _, h⟩
  | tail hmoves hmove ih =>
    refine ⟨ih.1.trans ((hmove.tarries (Moves.valid hmoves hv)).resolve_right ?_),
      hmove.tours_eq_nil ih.2⟩
    intro henters
    cases henters with
    | enter => exact nomatch ih.2

end

end EcmaModules
