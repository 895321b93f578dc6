import EcmaModules.Proofs.Misuse

/-!
# What one loading operation has asked for

A host that answers by a fixed function, whatever the order of its answers, is asked for the same
requests: those of the modules that are reached from the first one through the function. While the
operation goes on this is a matter of keeping books. The requests that walks have not come to yet
and those that the host was asked for are together the requests of the modules that the operation
has come to, each of them once; and those that the host was asked for are the ones that wait and the
ones that were answered.

The books say nothing of the order. An answer moves one entry, and comes to at most one module more.
When the count of the operation (`Store.Charts`) says that nothing is left, no entry waits and no
walk has anything to go through, so what was answered is all that there is to ask for.
-/

namespace EcmaModules

/-! ## What the host has -/

/-- What a host answers to each request of each module; to some it answers with an error. -/
abbrev Catalog := ModuleId → Request → Option ModuleId

namespace Catalog

variable (R : Catalog) (s : Store)

/-- The module requests the other one. -/
def Leads (m d : ModuleId) : Prop := ∃ q ∈ (s.entries m).requests, R m q = some d

/-- The module is reached from the other one through the answers. -/
abbrev Reaches : ModuleId → ModuleId → Prop := Relation.ReflTransGen (R.Leads s)

end Catalog

/-- What passes between loading and those outside. -/
inductive Exchange where
  /-- The host was asked for a module. -/
  | asked (call : LoadCall)
  /-- An answer of the host was taken. -/
  | answered (a : LoadAnswer)
  /-- A call has come back. -/
  | returned (r : Result)

/-- The requests that the host was asked for, the latest first. -/
def askedIn (H : List Exchange) : List (ModuleId × Request) :=
  H.filterMap fun
    | .asked call => some (call.referrer, call.request)
    | _ => none

/-- The answers that were taken, the latest first. -/
def answeredIn (H : List Exchange) : List LoadAnswer :=
  H.filterMap fun
    | .answered a => some a
    | _ => none

@[simp] theorem askedIn_asked (call : LoadCall) (H : List Exchange) :
    askedIn (.asked call :: H) = (call.referrer, call.request) :: askedIn H := rfl

@[simp] theorem askedIn_answered (a : LoadAnswer) (H : List Exchange) :
    askedIn (.answered a :: H) = askedIn H := rfl

@[simp] theorem answeredIn_asked (call : LoadCall) (H : List Exchange) :
    answeredIn (.asked call :: H) = answeredIn H := rfl

@[simp] theorem answeredIn_answered (a : LoadAnswer) (H : List Exchange) :
    answeredIn (.answered a :: H) = a :: answeredIn H := rfl

/-- What a walk asks for when it goes one step further. -/
def LoadStep.exchanges : LoadStep → List Exchange
  | .ask call _ => [.asked call]
  | _ => []

/-- What an answer answers. -/
def LoadAnswer.wanted (a : LoadAnswer) : ModuleId × Request := (a.call.referrer, a.call.request)

/-- The requests of modules. -/
def Store.wants (s : Store) (ms : List ModuleId) : List (ModuleId × Request) :=
  ms.flatMap fun m ↦ (s.entries m).requests.map (m, ·)

/-- The requests that a walk has not come to. -/
def LoadWalk.wants (w : LoadWalk) : List (ModuleId × Request) :=
  w.frames.flatMap fun f ↦ f.requests.map (f.module, ·)

namespace Store

variable {s s' s'' : Store} {m x : ModuleId} {q : Request}

theorem mem_wants {ms : List ModuleId} {p : ModuleId × Request} :
    p ∈ s.wants ms ↔ p.1 ∈ ms ∧ p.2 ∈ (s.entries p.1).requests := by
  obtain ⟨x, q⟩ := p
  simp only [wants, List.mem_flatMap, List.mem_map, Prod.mk.injEq]
  constructor
  · rintro ⟨m, hm, r, hr, rfl, rfl⟩
    exact ⟨hm, hr⟩
  · rintro ⟨hx, hq⟩
    exact ⟨x, hx, q, hq, rfl, rfl⟩

/-- The texts of modules that have not been loaded list different requests for different modules. -/
theorem Unread.requests (h : s.Unread) (m : ModuleId) : (s.entries m).requests.Nodup ∧
    ∀ a ∈ (s.entries m).requests, ∀ b ∈ (s.entries m).requests, a.same b = true → a = b := by
  rcases hr : s.source? m with _ | r
  · rw [Store.entries, hr]
    exact ⟨List.nodup_nil, List.forall_mem_nil _⟩
  · obtain ⟨deferring, body, heq, hdistinct⟩ := h.entries m r hr
    have hentries : s.entries m = r.entries := by
      rw [Store.entries, hr]
      rfl
    rw [hentries, heq]
    exact Entries.requests_ofBody deferring hdistinct

theorem Unread.nodup_wants (h : s.Unread) {ms : List ModuleId} (hms : ms.Nodup) :
    (s.wants ms).Nodup := by
  refine List.nodup_flatMap.2 ⟨fun m _ ↦ ?_, hms.imp fun {a b} hab ↦ ?_⟩
  · exact (h.requests m).1.map fun a b heq ↦ (Prod.mk.inj heq).2
  · rintro ⟨y, q⟩ ha hb
    obtain ⟨_, -, heq⟩ := List.mem_map.1 ha
    obtain ⟨_, -, heq'⟩ := List.mem_map.1 hb
    exact hab ((Prod.mk.inj heq).1.trans (Prod.mk.inj heq').1.symm)

/-! ## Texts -/

/-- The modules have the texts that they had. -/
structure Quotes (s s' : Store) : Prop where
  isSome : ∀ m, (s'.module? m).isSome = (s.module? m).isSome
  script : ∀ m, s'.script? m = s.script? m

namespace Quotes

theorem refl (s : Store) : s.Quotes s := ⟨fun _ ↦ rfl, fun _ ↦ rfl⟩

theorem trans (h : s.Quotes s') (h' : s'.Quotes s'') : s.Quotes s'' :=
  ⟨fun m ↦ (h'.isSome m).trans (h.isSome m), fun m ↦ (h'.script m).trans (h.script m)⟩

theorem of_copies (h : s.Copies s') : s.Quotes s' := ⟨h.isSome, h.script⟩

theorem of_modules (h : s'.modules = s.modules) : s.Quotes s' := .of_copies (.of_modules h)

theorem modifySource (s : Store) (m : ModuleId) {f : SourceText → SourceText}
    (hf : ∀ r, (f r).script = r.script) : s.Quotes (s.modifySource m f) := by
  refine ⟨fun x ↦ ?_, fun x ↦ ?_⟩
  · rw [Store.modifySource, module?_modifyModule]
    split
    · exact Option.isSome_map
    · rfl
  · rw [script?, source?_modifySource, script?]
    split
    · rw [Option.map_map]
      exact congrArg (Option.map · (s.source? x)) (funext hf)
    · rfl

theorem entries (h : s.Quotes s') (m : ModuleId) : s'.entries m = s.entries m := by
  rw [entries_eq, h.script, ← entries_eq]

theorem isSome_source? (h : s.Quotes s') (m : ModuleId) :
    (s'.source? m).isSome = (s.source? m).isSome := by
  have hm := congrArg Option.isSome (h.script m)
  rwa [script?, script?, Option.isSome_map, Option.isSome_map] at hm

end Quotes

/-- The status of modules that are taken to be loaded. -/
theorem status?_foldl_markLoaded (ms : List ModuleId) (s : Store) (x : ModuleId) :
    (ms.foldl markLoaded s).status? x =
      if x ∈ ms ∧ s.status? x = some .new then some .unlinked else s.status? x := by
  induction ms generalizing s with
  | nil => simp
  | cons m ms ih =>
    have hmark : (s.markLoaded m).status? x =
        if x = m ∧ s.status? x = some .new then some .unlinked else s.status? x := by
      rw [markLoaded, status?_modifySource, status?]
      by_cases hx : x = m
      · rcases s.source? x with _ | r
        · simp
        · by_cases hr : r.status = .new <;> simp [hx, hr]
      · simp [hx]
    rw [List.foldl_cons, ih, hmark]
    by_cases hs : s.status? x = some .new
    · by_cases hx : x = m
      · subst hx
        simp [hs]
      · simp [hs, hx]
    · simp [hs]

/-- The last module or answer is dealt with: what the operation has come to is loaded. -/
theorem finishDescent_last {l : LoadingId} {r : Loading} (hr : s.loading? l = some r)
    (hlast : r.pending = 1) :
    s.Copies (s.finishDescent l) ∧ (s.finishDescent l).loading? l =
        some { r with pending := r.pending - 1, isLoading := false, visited := [] } ∧
      (∀ x, (s.finishDescent l).status? x =
        if x ∈ r.visited ∧ s.status? x = some .new then some .unlinked else s.status? x) ∧
      ((∃ rs, s.promise? r.promise = some (.pending rs)) →
        (s.finishDescent l).promise? r.promise = some .fulfilled) := by
  set s₁ := (s.modifyLoading l fun r ↦ { r with pending := r.pending - 1 }).modifyLoading l
    fun r ↦ { r with isLoading := false, visited := [] } with hs₁
  have hfinish : s.finishDescent l = (r.visited.foldl markLoaded s₁).settle r.promise (.ok ()) := by
    simp only [finishDescent, hr, hlast, if_true]
    rfl
  have hmodules := modules_settle (r.visited.foldl markLoaded s₁) r.promise (.ok ())
  have hloadings := loadings_settle (r.visited.foldl markLoaded s₁) r.promise (.ok ())
  have hsame := (foldl_markLoaded r.visited s₁).1
  have hduties : (r.visited.foldl markLoaded s₁).duties = s₁.duties :=
    duties_foldl (f := markLoaded) (fun _ _ ↦ rfl) r.visited s₁
  have hcopies : s.Copies s₁ := .of_modules rfl
  rw [hfinish]
  refine ⟨hcopies.trans ((Copies.of_same hsame).trans (.of_modules hmodules)), ?_, fun x ↦ ?_,
    fun hpending ↦ ?_⟩
  · rw [loading?_congr (hloadings.trans hsame.loadings), hs₁, loading?_modifyLoading,
      loading?_modifyLoading, if_pos rfl, if_pos rfl, hr]
    rfl
  · rw [status?, source?_congr hmodules x, ← status?, status?_foldl_markLoaded]
    rfl
  · obtain ⟨rs, hrs⟩ := hpending
    have hmark : (r.visited.foldl markLoaded s₁).promise? r.promise = some (.pending rs) := by
      rw [promise?, (Prod.mk.inj hduties).1]
      exact hrs
    rw [promise?_settle hmark, if_pos rfl]
    rfl

end Store

/-! ## The books -/

/-- The books of an operation that goes on: `V` is what it has come to, `O` what it waits for. -/
structure Books (R : Catalog) (s₀ : Store) (root : ModuleId) (W : List LoadWalk)
    (H : List Exchange) (V : List ModuleId) (O : List (ModuleId × Request)) : Prop where
  nodup : V.Nodup
  rooted : root ∈ V
  reached : ∀ x ∈ V, R.Reaches s₀ root x
  asked : (W.flatMap LoadWalk.wants ++ askedIn H).Perm (s₀.wants V)
  answered : (askedIn H).Perm (O ++ (answeredIn H).map LoadAnswer.wanted)

namespace Books

variable {R : Catalog} {s₀ : Store} {root m d : ModuleId} {W W' : List LoadWalk}
  {H : List Exchange} {V : List ModuleId} {O : List (ModuleId × Request)} {l : LoadingId}
  {q : Request} {p : ModuleId × Request}

theorem rewalk (h : Books R s₀ root W H V O)
    (hW : W'.flatMap LoadWalk.wants = W.flatMap LoadWalk.wants) : Books R s₀ root W' H V O :=
  ⟨h.nodup, h.rooted, h.reached, hW ▸ h.asked, h.answered⟩

theorem nodup_asked (h : Books R s₀ root W H V O) (hs : s₀.Unread) : (askedIn H).Nodup :=
  (h.asked.nodup_iff.2 (hs.nodup_wants h.nodup)).of_append_right

theorem mem_of_asked (h : Books R s₀ root W H V O) (hp : p ∈ askedIn H) :
    p.1 ∈ V ∧ p.2 ∈ (s₀.entries p.1).requests :=
  Store.mem_wants.1 (h.asked.subset (List.mem_append_right _ hp))

theorem asked_of_waiting (h : Books R s₀ root W H V O) (hp : p ∈ O) : p ∈ askedIn H :=
  h.answered.symm.subset (List.mem_append_left _ hp)

theorem asked_of_answered {a : LoadAnswer} (h : Books R s₀ root W H V O) (ha : a ∈ answeredIn H) :
    a.wanted ∈ askedIn H :=
  h.answered.symm.subset (List.mem_append_right _ (List.mem_map_of_mem ha))

/-- What the operation waits for was not answered. -/
theorem not_answered {a : LoadAnswer} (h : Books R s₀ root W H V O) (hs : s₀.Unread)
    (ha : a ∈ answeredIn H) : a.wanted ∉ O := fun hO ↦ by
  have hnodup := h.answered.nodup_iff.1 (h.nodup_asked hs)
  exact (List.nodup_append.1 hnodup).2.2 _ hO _ (List.mem_map_of_mem ha) rfl

/-- The operation comes to a module. -/
theorem visit (h : Books R s₀ root W H V O) (hd : d ∉ V) (hreach : R.Reaches s₀ root d) :
    Books R s₀ root (⟨l, [⟨d, (s₀.entries d).requests⟩]⟩ :: W) H (V ++ [d]) O := by
  refine ⟨List.nodup_append.2 ⟨h.nodup, List.nodup_singleton d, ?_⟩,
    List.mem_append_left _ h.rooted, fun x hx ↦ ?_, ?_, h.answered⟩
  · rintro a ha b hb rfl
    exact hd (List.mem_singleton.1 hb ▸ ha)
  · rcases List.mem_append.1 hx with hx | hx
    · exact h.reached x hx
    · exact List.mem_singleton.1 hx ▸ hreach
  · have hwants : s₀.wants (V ++ [d]) = s₀.wants V ++ (s₀.entries d).requests.map (d, ·) := by
      simp [Store.wants]
    rw [hwants, List.flatMap_cons, List.append_assoc]
    refine List.perm_append_comm.trans (h.asked.append ?_)
    simp [LoadWalk.wants]

/-- The host is asked for what comes next in a walk. -/
theorem ask {qs : List Request} {fs : List LoadFrame}
    (h : Books R s₀ root (⟨l, ⟨m, q :: qs⟩ :: fs⟩ :: W) H V O) :
    Books R s₀ root (⟨l, ⟨m, qs⟩ :: fs⟩ :: W) (.asked ⟨l, m, q⟩ :: H) V (O ++ [(m, q)]) := by
  refine ⟨h.nodup, h.rooted, h.reached, ?_, ?_⟩
  · rw [askedIn_asked]
    refine List.perm_middle.trans ?_
    simpa [LoadWalk.wants] using h.asked
  · rw [askedIn_asked, List.append_assoc]
    exact (h.answered.cons (m, q)).trans List.perm_middle.symm

/-- A request is answered. -/
theorem answer {a : LoadAnswer} {O' : List (ModuleId × Request)}
    (h : Books R s₀ root W H V O) (hO : O.Perm (a.wanted :: O')) :
    Books R s₀ root W (.answered a :: H) V O' := by
  refine ⟨h.nodup, h.rooted, h.reached, h.asked, h.answered.trans ?_⟩
  exact (hO.append_right _).trans List.perm_middle.symm

end Books

/-! ## What was recorded -/

/-- The modules are new, and have been given what was answered. -/
structure Store.Recorded (s : Store) (R : Catalog) (s₀ : Store) (A : List LoadAnswer) : Prop where
  quotes : s₀.Quotes s
  new : ∀ m t, s.source? m = some t → t.status = .new
  loaded : ∀ m t, s.source? m = some t → ∀ e ∈ t.loaded, ∃ a ∈ A, a.wanted = (m, e.request)
  imported : ∀ a ∈ A, ∃ d, a.outcome = .ok d ∧ R a.call.referrer a.call.request = some d ∧
    s.imported? a.call.referrer a.call.request = some d

namespace Store.Recorded

variable {R : Catalog} {s₀ s s' : Store} {A : List LoadAnswer} {a : LoadAnswer} {d m : ModuleId}

theorem of_modules (h : s.Recorded R s₀ A) (hm : s'.modules = s.modules) : s'.Recorded R s₀ A := by
  have himported : ∀ m q, s'.imported? m q = s.imported? m q := (Copies.of_modules hm).imported
  refine ⟨h.quotes.trans (.of_modules hm), fun m t ht ↦ ?_, fun m t ht ↦ ?_, fun a ha ↦ ?_⟩
  · exact h.new m t (source?_congr hm m ▸ ht)
  · exact h.loaded m t (source?_congr hm m ▸ ht)
  · rw [himported]
    exact h.imported a ha

/-- A module is new if it has source text. -/
theorem not_old (h : s.Recorded R s₀ A) : s.Old m ↔ (s.source? m).isSome = false := by
  rw [Old, status?]
  rcases hm : s.source? m with _ | t
  · simp
  · simp [h.new m t hm]

/-- An answer is recorded. -/
theorem record (h : s.Recorded R s₀ A) (ha : a.outcome = .ok d)
    (hR : R a.call.referrer a.call.request = some d) (hq : a.call.request.Distinct)
    (hsource : (s.source? a.call.referrer).isSome)
    (hnone : s.imported? a.call.referrer a.call.request = none) :
    (s.recordLoaded a.call d).2.Recorded R s₀ (a :: A) := by
  simp only [recordLoaded, hnone]
  set s₁ := s.modifySource a.call.referrer fun r ↦
    { r with loaded := r.loaded ++ [⟨a.call.request, d⟩] } with hs₁
  have hs : ∀ x t', s₁.source? x = some t' → ∃ t, s.source? x = some t ∧ t'.status = t.status ∧
      ∀ e ∈ t'.loaded, e ∈ t.loaded ∨ x = a.call.referrer ∧ e.request = a.call.request := by
    intro x t' ht'
    rw [hs₁, source?_modifySource] at ht'
    split at ht'
    · next hx =>
      obtain ⟨t, ht, rfl⟩ := Option.map_eq_some_iff.1 ht'
      refine ⟨t, ht, rfl, fun e he ↦ (List.mem_append.1 he).imp_right fun he ↦ ⟨hx, ?_⟩⟩
      rw [List.mem_singleton.1 he]
    · exact ⟨t', ht', rfl, fun e ↦ .inl⟩
  refine ⟨h.quotes.trans (.modifySource s _ fun _ ↦ rfl), fun x t' ht' ↦ ?_, fun x t' ht' e he ↦ ?_,
    List.forall_mem_cons.2 ⟨⟨d, ha, hR, ?_⟩, fun b hb ↦ ?_⟩⟩
  · obtain ⟨t, ht, hstatus, -⟩ := hs x t' ht'
    exact hstatus.trans (h.new x t ht)
  · obtain ⟨t, ht, -, hloaded⟩ := hs x t' ht'
    rcases hloaded e he with he | ⟨rfl, hrequest⟩
    · obtain ⟨b, hb, heq⟩ := h.loaded x t ht e he
      exact ⟨b, List.mem_cons_of_mem _ hb, heq⟩
    · exact ⟨a, List.mem_cons_self, by rw [hrequest]; rfl⟩
  · obtain ⟨t, ht⟩ := Option.isSome_iff_exists.1 hsource
    have hfind : t.loaded.find? (·.request.same a.call.request) = none := by
      simpa [imported?, ht] using hnone
    simp [hs₁, imported?, source?_modifySource, ht, List.find?_append, hfind, hq.same_self]
  · obtain ⟨y, hok, hR', hy⟩ := h.imported b hb
    exact ⟨y, hok, hR', grows_appendLoaded s _ _ _ _ _ hy⟩

end Store.Recorded

/-! ## How an operation can stand -/

/-- The answer that failed first, with its error. -/
def FirstFailure (H : List Exchange) (e : ErrorId) : Prop :=
  ∃ a later earlier, H = later ++ .answered a :: earlier ∧ a.outcome = .error e ∧
    ∀ b ∈ answeredIn earlier, ∃ d, b.outcome = .ok d

theorem FirstFailure.append {H : List Exchange} {e : ErrorId} (h : FirstFailure H e)
    (H' : List Exchange) : FirstFailure (H' ++ H) e := by
  obtain ⟨a, later, earlier, rfl, hrest⟩ := h
  exact ⟨a, H' ++ later, earlier, (List.append_assoc _ _ _).symm, hrest⟩

namespace Store

/-- There is no more than one operation. -/
def Single (s : Store) : Prop := ∀ l, (s.loading? l).isSome → l = ⟨0⟩

theorem Single.works {s s' : Store} {l : LoadingId} (h : s.Single) (hw : s.Works l s') :
    s'.Single :=
  fun x hx ↦ h x (hw.isSome_loading? x ▸ hx)

theorem Single.alters {s s' : Store} {l : LoadingId} {f : Loading → Loading} (h : s.Single)
    (hs : Alters l f s s') : s'.Single := fun x hx ↦ by
  rw [hs.loading?] at hx
  split at hx
  · exact h x (Option.isSome_map.symm.trans hx)
  · exact h x hx

section

variable (s : Store) (R : Catalog) (s₀ : Store) (root : ModuleId) (W : List LoadWalk)
  (H : List Exchange)

/-- The operation goes on. -/
structure Seeks (r : Loading) : Prop where
  loading : s.loading? ⟨0⟩ = some r
  going : r.isLoading = true
  counts : 1 ≤ r.pending
  promise : s.promise? r.promise = some (.pending [])
  books : Books R s₀ root W H r.visited r.outstanding
  recorded : s.Recorded R s₀ (answeredIn H)

/-- The operation has succeeded. -/
structure Found (r : Loading) : Prop where
  loading : s.loading? ⟨0⟩ = some r
  ended : r.isLoading = false
  answered : r.outstanding = []
  promise : s.promise? r.promise = some .fulfilled
  known : ∀ x, R.Reaches s₀ root x → ∀ q ∈ (s₀.entries x).requests,
    ∃ d, R x q = some d ∧ s.imported? x q = some d
  nodup : (askedIn H).Nodup
  asked : ∀ x q, (x, q) ∈ askedIn H ↔ R.Reaches s₀ root x ∧ q ∈ (s₀.entries x).requests
  unlinked : ∀ x, (s₀.source? x).isSome → R.Reaches s₀ root x → s.status? x = some .unlinked
  new : ∀ x, (s₀.source? x).isSome → ¬R.Reaches s₀ root x → s.status? x = some .new

/-- The operation has failed. -/
structure Lost (r : Loading) : Prop where
  loading : s.loading? ⟨0⟩ = some r
  ended : r.isLoading = false
  failed : ∃ e, s.promise? r.promise = some (.rejected e) ∧ FirstFailure H e
  fails : ∃ x q, R.Reaches s₀ root x ∧ q ∈ (s₀.entries x).requests ∧ R x q = none
  new : ∀ x, (s₀.source? x).isSome → s.status? x = some .new

/-- The one operation there is, with its promise, goes on or is over. -/
structure OnErrand (p : PromiseId) : Prop where
  single : s.Single
  quotes : s₀.Quotes s
  stands : ∃ r : Loading, r.promise = p ∧
    (s.Seeks R s₀ root W H r ∨ s.Found R s₀ root H r ∨ s.Lost R s₀ root H r)

end

variable {R : Catalog} {s₀ s s' : Store} {root d m : ModuleId} {W : List LoadWalk}
  {H : List Exchange} {r : Loading} {p : PromiseId}

theorem isSome_source?_of_mem {q : Request} (h : q ∈ (s.entries m).requests) :
    (s.source? m).isSome := by
  rcases hm : s.source? m with _ | t
  · rw [Store.entries, hm] at h
    exact absurd h List.not_mem_nil
  · rfl

theorem status?_of_new (h : s₀.Quotes s) (hnew : ∀ m t, s.source? m = some t → t.status = .new)
    (hm : (s₀.source? m).isSome) : s.status? m = some .new := by
  obtain ⟨t, ht⟩ := Option.isSome_iff_exists.1 ((h.isSome_source? m).trans hm)
  rw [status?, ht, Option.map_some, hnew m t ht]

/-- The walks may be noted in another way. -/
theorem OnErrand.rewalk {W' : List LoadWalk} (h : s.OnErrand R s₀ root W H p)
    (hW : W'.flatMap LoadWalk.wants = W.flatMap LoadWalk.wants) :
    s.OnErrand R s₀ root W' H p := by
  obtain ⟨hsingle, hquotes, r, hp, hstands⟩ := h
  refine ⟨hsingle, hquotes, r, hp, hstands.imp_left fun h ↦ ?_⟩
  exact ⟨h.loading, h.going, h.counts, h.promise, h.books.rewalk hW, h.recorded⟩

namespace Seeks

/-- When nothing is left, everything that can be reached has been asked for. -/
theorem closed (h : s.Seeks R s₀ root W H r) (hout : r.outstanding = [])
    (hW : W.flatMap LoadWalk.wants = [])
    (hmet : ∀ x ∈ r.visited, ∀ q ∈ (s.entries x).requests,
      ∃ y, s.imported? x q = some y ∧ (s.Old y ∨ y ∈ r.visited)) :
    (askedIn H).Perm (s₀.wants r.visited) ∧
    (∀ x ∈ r.visited, ∀ q ∈ (s₀.entries x).requests,
      ∃ d, R x q = some d ∧ s.imported? x q = some d) ∧
    ∀ x, R.Reaches s₀ root x → (s₀.source? x).isSome → x ∈ r.visited := by
  obtain ⟨-, -, -, -, hbooks, hrecorded⟩ := h
  have hasked : (askedIn H).Perm (s₀.wants r.visited) := by
    simpa [hW] using hbooks.asked
  have hanswered : (askedIn H).Perm ((answeredIn H).map LoadAnswer.wanted) := by
    simpa [hout] using hbooks.answered
  have hknown : ∀ x ∈ r.visited, ∀ q ∈ (s₀.entries x).requests,
      ∃ d, R x q = some d ∧ s.imported? x q = some d := fun x hx q hq ↦ by
    have hmem : (x, q) ∈ askedIn H := hasked.symm.subset (mem_wants.2 ⟨hx, hq⟩)
    obtain ⟨a, ha, heq⟩ := List.mem_map.1 (hanswered.subset hmem)
    obtain ⟨d, -, hR, hd⟩ := hrecorded.imported a ha
    obtain ⟨rfl, rfl⟩ := Prod.mk.inj heq
    exact ⟨d, hR, hd⟩
  refine ⟨hasked, hknown, fun x hx hsource ↦ ?_⟩
  -- along a path of answers: the module before it was visited, so it was given what the host has
  induction hx with
  | refl => exact hbooks.rooted
  | @tail x y _ hleads ih =>
    obtain ⟨q, hq, hR⟩ := hleads
    have hvisited := ih (isSome_source?_of_mem hq)
    obtain ⟨z, hz, hmet⟩ := hmet x hvisited q (hrecorded.quotes.entries x ▸ hq)
    obtain ⟨d, hR', hd⟩ := hknown x hvisited q hq
    obtain rfl := Option.some.inj (hd.symm.trans hz)
    obtain rfl := Option.some.inj (hR'.symm.trans hR)
    refine hmet.resolve_left fun hold ↦ ?_
    rw [hrecorded.not_old, hrecorded.quotes.isSome_source?, hsource] at hold
    contradiction

/-- The operation comes to a module that it has to go through. -/
theorem visit (h : s.Seeks R s₀ root W H r) (hd : s.descends ⟨0⟩ d = true)
    (hreach : R.Reaches s₀ root d) :
    ∃ r', r'.promise = r.promise ∧ (s.visit ⟨0⟩ d).Seeks R s₀ root
      (⟨⟨0⟩, [⟨d, (s.entries d).requests⟩]⟩ :: W) H r' := by
  obtain ⟨hloading, hgoing, hcounts, hpromise, hbooks, hrecorded⟩ := h
  have hvisited : d ∉ r.visited := by
    simp only [descends, hloading, Option.any_some, Bool.and_eq_true, Bool.not_eq_true',
      List.contains_eq_mem, decide_eq_false_iff_not] at hd
    exact hd.2
  refine ⟨{ r with
      visited := r.visited ++ [d]
      pending := r.pending + (s.entries d).requests.length }, rfl, ?_, hgoing, ?_, hpromise, ?_,
    hrecorded.of_modules rfl⟩
  · rw [Store.visit, loading?_modifyLoading, if_pos rfl, hloading]
    rfl
  · exact Nat.le_trans hcounts (Nat.le_add_right _ _)
  · rw [hrecorded.quotes.entries]
    exact hbooks.visit hvisited hreach

/-- The operation is through with its last module. -/
theorem succeed (hs : s₀.Unread) (h : s.Seeks R s₀ root W H r) (hsingle : s.Single)
    (hc : s.Charts W [(⟨0⟩, d)]) (hd : s.descends ⟨0⟩ d = false) (hlast : r.pending = 1) :
    ∃ r', r'.promise = r.promise ∧ (s.finishDescent ⟨0⟩).Found R s₀ root H r' := by
  have hcharted := hc.charted _ r h.loading h.going
  rw [targetsOf_cons_self] at hcharted
  obtain ⟨hout, hframes, hmet⟩ := Charts.last hcharted (Charts.met_of_descends h.loading hd) hlast
  have hwalks : W.flatMap LoadWalk.wants = [] := List.flatMap_eq_nil_iff.2 fun w hw ↦ by
    -- there is no other operation whose walk it could be
    have hself : w.loading = ⟨0⟩ := hsingle _ (hc.walks w hw).1
    have hmem : w ∈ walksOf W ⟨0⟩ := List.mem_filter.2 ⟨hw, by simp [hself]⟩
    rw [LoadWalk.wants, hframes w hmem]
    rfl
  obtain ⟨hasked, hknown, hreached⟩ := h.closed hout hwalks hmet
  obtain ⟨hloading, hgoing, -, hpromise, hbooks, hrecorded⟩ := h
  obtain ⟨hcopies, hloading', hstatus, hpromise'⟩ := finishDescent_last hloading hlast
  have hsource : ∀ x, (s₀.source? x).isSome → s.status? x = some .new := fun x ↦
    status?_of_new hrecorded.quotes hrecorded.new
  have hrequests : ∀ {x}, R.Reaches s₀ root x → ∀ {q}, q ∈ (s₀.entries x).requests →
      x ∈ r.visited := fun hx q hq ↦ hreached _ hx (isSome_source?_of_mem hq)
  refine ⟨{ r with pending := r.pending - 1, isLoading := false, visited := [] }, rfl, hloading',
    rfl, hout, hpromise' ⟨_, hpromise⟩, fun x hx q hq ↦ ?_, ?_, fun x q ↦ ?_,
    fun x hx hreach ↦ ?_, fun x hx hreach ↦ ?_⟩
  · obtain ⟨y, hR, hy⟩ := hknown x (hrequests hx hq) q hq
    exact ⟨y, hR, (hcopies.imported x q).trans hy⟩
  · exact hasked.nodup_iff.2 (hs.nodup_wants hbooks.nodup)
  · rw [hasked.mem_iff, mem_wants]
    exact and_congr_left fun hq ↦ ⟨hbooks.reached x, fun hx ↦ hrequests hx hq⟩
  · rw [hstatus, if_pos ⟨hreached x hreach hx, hsource x hx⟩]
  · rw [hstatus, if_neg fun hmem ↦ hreach (hbooks.reached x hmem.1)]
    exact hsource x hx

/-- The operation is through with a module, and with everything if that was the last one. -/
theorem descend (hs : s₀.Unread) (h : s.Seeks R s₀ root W H r) (hsingle : s.Single)
    (hc : s.Charts W [(⟨0⟩, d)]) (hd : s.descends ⟨0⟩ d = false) :
    (s.finishDescent ⟨0⟩).OnErrand R s₀ root W H r.promise := by
  have hgo : s.isLoading ⟨0⟩ = true := isLoading_iff.2 ⟨r, h.loading, h.going⟩
  by_cases hlast : r.pending = 1
  · obtain ⟨r', hp, hfound⟩ := h.succeed hs hsingle hc hd hlast
    have hcopies := (finishDescent_last h.loading hlast).1
    exact ⟨hsingle.works (finishDescent_works hgo),
      h.recorded.quotes.trans (.of_copies hcopies), r', hp, .inr (.inl hfound)⟩
  · obtain ⟨hloading, hgoing, hcounts, hpromise, hbooks, hrecorded⟩ := h
    have hfinish : s.finishDescent ⟨0⟩ =
        s.modifyLoading ⟨0⟩ fun r ↦ { r with pending := r.pending - 1 } := by
      simp only [finishDescent, hloading, hlast, if_false]
    refine ⟨hsingle.works (finishDescent_works hgo), ?_,
      { r with pending := r.pending - 1 }, rfl, .inl ⟨?_, hgoing, ?_, ?_, hbooks, ?_⟩⟩
    · rw [hfinish]
      exact hrecorded.quotes.trans (.of_modules rfl)
    · rw [hfinish, loading?_modifyLoading, if_pos rfl, hloading]
      rfl
    · exact Nat.le_sub_one_of_lt (Nat.lt_of_le_of_ne hcounts (Ne.symm hlast))
    · rw [hfinish]
      exact hpromise
    · rw [hfinish]
      exact hrecorded.of_modules rfl

/-- The operation comes to a module. -/
theorem come (hs : s₀.Unread) (h : s.Seeks R s₀ root W H r) (hsingle : s.Single)
    (hc : s.Charts W [(⟨0⟩, d)]) (hreach : R.Reaches s₀ root d) :
    (LoadWalk.from s ⟨0⟩ d).1.OnErrand R s₀ root ((LoadWalk.from s ⟨0⟩ d).2 :: W) H r.promise := by
  unfold LoadWalk.from
  cases hd : s.descends ⟨0⟩ d with
  | true =>
    obtain ⟨r', hp, hseeks⟩ := h.visit hd hreach
    exact ⟨hsingle.works (s.visit_works _ d), h.recorded.quotes.trans (.of_modules rfl), r', hp,
      .inl hseeks⟩
  | false =>
    simp only [Bool.false_eq_true, if_false]
    exact (h.descend hs hsingle hc hd).rewalk rfl

/-- The host is asked for what comes next in a walk. -/
theorem ask {q : Request} {qs : List Request} {fs : List LoadFrame}
    (h : s.Seeks R s₀ root (⟨⟨0⟩, ⟨m, q :: qs⟩ :: fs⟩ :: W) H r) :
    (s.modifyLoading ⟨0⟩ fun r ↦ { r with outstanding := r.outstanding ++ [(m, q)] }).Seeks R s₀
      root (⟨⟨0⟩, ⟨m, qs⟩ :: fs⟩ :: W) (.asked ⟨⟨0⟩, m, q⟩ :: H)
      { r with outstanding := r.outstanding ++ [(m, q)] } := by
  obtain ⟨hloading, hgoing, hcounts, hpromise, hbooks, hrecorded⟩ := h
  refine ⟨?_, hgoing, hcounts, hpromise, hbooks.ask, hrecorded.of_modules rfl⟩
  rw [loading?_modifyLoading, if_pos rfl, hloading]
  rfl

/-- What was given for a request was given when that was answered. -/
theorem answered_of_imported {q : Request} (hs : s₀.Unread) (h : s.Seeks R s₀ root W H r)
    (hq : q ∈ (s₀.entries m).requests) (hd : s.imported? m q = some d) :
    ∃ a ∈ answeredIn H, a.wanted = (m, q) := by
  obtain ⟨-, -, -, -, hbooks, hrecorded⟩ := h
  obtain ⟨t, ht, hfind⟩ := Option.bind_eq_some_iff.1 hd
  obtain ⟨e, he, -⟩ := Option.map_eq_some_iff.1 hfind
  obtain ⟨a, ha, heq⟩ := hrecorded.loaded m t ht e (List.mem_of_find?_eq_some he)
  have hlisted : e.request ∈ (s₀.entries m).requests := by
    have hasked := hbooks.mem_of_asked (hbooks.asked_of_answered ha)
    rw [heq] at hasked
    exact hasked.2
  have hsame : e.request.same q = true := by simpa using List.find?_some he
  rw [(hs.requests m).2 _ hlisted _ hq hsame] at heq
  exact ⟨a, ha, heq⟩

/-- Nothing was given for a request that a walk has not come to. -/
theorem not_imported {q : Request} {qs : List Request} {fs : List LoadFrame} {l : LoadingId}
    (hs : s₀.Unread) (h : s.Seeks R s₀ root (⟨l, ⟨m, q :: qs⟩ :: fs⟩ :: W) H r) :
    s.imported? m q = none := by
  by_contra hne
  obtain ⟨d, hd⟩ := Option.ne_none_iff_exists'.1 hne
  have hleft : (m, q) ∈ (⟨l, ⟨m, q :: qs⟩ :: fs⟩ :: W).flatMap LoadWalk.wants := by
    simp [LoadWalk.wants]
  have hlisted := (mem_wants.1 (h.books.asked.subset (List.mem_append_left _ hleft))).2
  obtain ⟨a, ha, heq⟩ := h.answered_of_imported hs hlisted hd
  -- a request is not counted twice
  have hnodup := h.books.asked.nodup_iff.2 (hs.nodup_wants h.books.nodup)
  exact (List.nodup_append.1 hnodup).2.2 _ hleft _ (heq ▸ h.books.asked_of_answered ha) rfl

/-- A walk goes one step further. -/
theorem advance {w : LoadWalk} (hs : s₀.Unread) (h : s.Seeks R s₀ root (w :: W) H r)
    (hsingle : s.Single) (hc : s.Charts (w :: W) []) :
    (w.advance s).1.OnErrand R s₀ root ((w.advance s).2.walks ++ W)
      ((w.advance s).2.exchanges ++ H) r.promise := by
  obtain ⟨⟨l⟩, frames⟩ := w
  obtain rfl : l = 0 := congrArg LoadingId.index (hsingle _ (hc.walks _ List.mem_cons_self).1)
  have hgo : s.isLoading ⟨0⟩ = true := isLoading_iff.2 ⟨r, h.loading, h.going⟩
  have hquotes := h.recorded.quotes
  simp only [LoadWalk.advance, hgo, Bool.not_true, Bool.false_eq_true, if_false]
  rcases frames with _ | ⟨⟨m, _ | ⟨q, qs⟩⟩, rest⟩
  · exact OnErrand.rewalk ⟨hsingle, hquotes, r, rfl, .inl h⟩ rfl
  · have hvisited : m ∈ r.visited := by
      have hcharted := hc.charted _ r h.loading h.going
      rw [walksOf_cons_self rfl] at hcharted
      exact hcharted.frames _ List.mem_cons_self _ List.mem_cons_self
    have hwants : (⟨⟨0⟩, ⟨m, []⟩ :: rest⟩ : LoadWalk).wants = (⟨⟨0⟩, rest⟩ : LoadWalk).wants := by
      simp [LoadWalk.wants]
    have hseeks : s.Seeks R s₀ root (⟨⟨0⟩, rest⟩ :: W) H r :=
      ⟨h.loading, h.going, h.counts, h.promise, h.books.rewalk (by simp [hwants]), h.recorded⟩
    exact hseeks.descend hs hsingle hc.finish (not_descends_of_visited h.loading hvisited)
  · simp only [h.not_imported hs]
    exact ⟨hsingle.alters (.modifyLoading s _ _), hquotes.trans (.of_modules rfl),
      { r with outstanding := r.outstanding ++ [(m, q)] }, rfl, .inl h.ask⟩

end Seeks

/-! ## Answers -/

/-- The answer is one to a request that is waited for, and is what the host has for it. -/
def Heeds (s : Store) (R : Catalog) (a : LoadAnswer) : Prop :=
  (∃ r, s.loading? a.call.loading = some r ∧ a.wanted ∈ r.outstanding) ∧
    ∀ d, a.outcome = .ok d ↔ R a.call.referrer a.call.request = some d

theorem Heeds.isOutstanding {a : LoadAnswer} (h : s.Heeds R a) (hq : a.call.request.Distinct) :
    s.isOutstanding a.call = true := by
  obtain ⟨⟨r, hr, hmem⟩, -⟩ := h
  simp only [Store.isOutstanding, hr, Option.any_some, List.any_eq_true, Bool.and_eq_true,
    beq_iff_eq]
  exact ⟨_, hmem, rfl, hq.same_self⟩

/-- When an answer is checked, no more happens to modules than that one of them may be given what
it requests. -/
theorem checkAnswer_quotes (s : Store) (a : LoadAnswer) :
    s.Quotes (s.checkAnswer a).2 ∧ ∀ x, (s.checkAnswer a).2.status? x = s.status? x := by
  have hrecord : ∀ (s : Store) m, s.Quotes (s.recordLoaded a.call m).2 ∧
      ∀ x, (s.recordLoaded a.call m).2.status? x = s.status? x := fun s m ↦ by
    unfold recordLoaded
    split
    · split <;> exact ⟨.of_modules rfl, fun x ↦ rfl⟩
    · exact ⟨.modifySource s _ fun _ ↦ rfl, status?_modifySource_of_status fun _ ↦ rfl⟩
  unfold checkAnswer
  split
  · have htaken : s.Quotes (s.takeOutstanding a.call) := .of_modules rfl
    dsimp only
    split
    · exact ⟨htaken.trans (hrecord _ _).1, (hrecord _ _).2⟩
    · exact ⟨htaken, fun x ↦ rfl⟩
  · exact ⟨.of_modules rfl, fun x ↦ rfl⟩

theorem Heeds.waits {a : LoadAnswer} (ha : s.Heeds R a) (h : s.Seeks R s₀ root W H r)
    (hsingle : s.Single) : a.call.loading = ⟨0⟩ ∧ a.wanted ∈ r.outstanding ∧
      a.call.referrer ∈ r.visited ∧ a.call.request ∈ (s₀.entries a.call.referrer).requests := by
  obtain ⟨⟨r', hr', hmem⟩, -⟩ := ha
  have hself : a.call.loading = ⟨0⟩ := hsingle _ (by rw [hr']; rfl)
  rw [hself, h.loading] at hr'
  obtain rfl := Option.some.inj hr'
  exact ⟨hself, hmem, h.books.mem_of_asked (h.books.asked_of_waiting hmem)⟩

/-- Of what the operation waits for, the request that is answered is taken away. -/
theorem Heeds.erase {a : LoadAnswer} (ha : s.Heeds R a) (hs : s₀.Unread)
    (h : s.Seeks R s₀ root W H r) (hsingle : s.Single) :
    r.outstanding.Perm (a.wanted :: r.outstanding.eraseP fun o ↦
      o.1 == a.call.referrer && o.2.same a.call.request) := by
  obtain ⟨-, hmem, -, hlisted⟩ := ha.waits h hsingle
  have hdistinct := (hs.filed.entries a.call.referrer).distinct _
    (Entries.requests_subset_asked _ hlisted)
  obtain ⟨o, l₁, l₂, -, ho, hlist, herase⟩ := List.exists_of_eraseP
    (p := fun o ↦ o.1 == a.call.referrer && o.2.same a.call.request) hmem
    (by simp [LoadAnswer.wanted, hdistinct.same_self])
  obtain ⟨href, hsame⟩ := Bool.and_eq_true_iff.1 ho
  replace href : o.1 = a.call.referrer := beq_iff_eq.1 href
  have hoO : o ∈ r.outstanding := hlist ▸ List.mem_append_right _ List.mem_cons_self
  have hother := (h.books.mem_of_asked (h.books.asked_of_waiting hoO)).2
  rw [href] at hother
  have heq : o = a.wanted := Prod.ext href ((hs.requests _).2 _ hother _ hlisted hsame)
  rw [herase, hlist, heq]
  exact List.perm_middle

/-- A module is given for a request. -/
theorem Seeks.accept {a : LoadAnswer} (hs : s₀.Unread) (h : s.Seeks R s₀ root W H r)
    (hsingle : s.Single) (hc : s.Charts W []) (ha : s.Heeds R a) (hd : a.outcome = .ok d)
    (hhoused : (s.module? d).isSome) :
    (s.takeAnswer a).1.OnErrand R s₀ root ((s.takeAnswer a).2.toList ++ W) (.answered a :: H)
      r.promise := by
  obtain ⟨hself, hmem, hvisited, hlisted⟩ := ha.waits h hsingle
  have hdistinct := (hs.filed.entries a.call.referrer).distinct _
    (Entries.requests_subset_asked _ hlisted)
  have hout := ha.isOutstanding hdistinct
  have hR := (ha.2 d).1 hd
  have hnone : s.imported? a.call.referrer a.call.request = none := by
    by_contra hne
    obtain ⟨y, hy⟩ := Option.ne_none_iff_exists'.1 hne
    obtain ⟨b, hb, heq⟩ := h.answered_of_imported hs hlisted hy
    refine h.books.not_answered hs hb ?_
    rw [heq]
    exact hmem
  have hok : (s.recordLoaded a.call d).1 = .ok d := by simp only [recordLoaded, hnone]
  set s₁ := (s.recordLoaded a.call d).2.takeOutstanding a.call with hs₁
  have hcheck : s.checkAnswer a = (.ok d, s₁) := by
    simp only [checkAnswer, hout, hd, if_true, recordLoaded_takeOutstanding, hok]
    rfl
  obtain ⟨hrecord, himported⟩ := hc.record hout hhoused hok
  have hloadings := s.loadings_recordLoaded a.call d
  have hwaits : (s.recordLoaded a.call d).2.isOutstanding a.call = true := by
    rw [Store.isOutstanding, loading?_congr hloadings]
    exact hout
  have hcharts : s₁.Charts W [(⟨0⟩, d)] := hself ▸ hrecord.take hwaits himported
  have hduties := duties_recordLoaded s a.call d
  have hsource : (s.source? a.call.referrer).isSome := by
    rw [h.recorded.quotes.isSome_source?]
    exact isSome_source?_of_mem hlisted
  have hseeks : s₁.Seeks R s₀ root W (.answered a :: H) { r with
      outstanding := r.outstanding.eraseP fun o ↦
        o.1 == a.call.referrer && o.2.same a.call.request } := by
    refine ⟨?_, h.going, h.counts, ?_, h.books.answer (ha.erase hs h hsingle), ?_⟩
    · rw [hs₁, takeOutstanding, hself, loading?_modifyLoading, if_pos rfl, loading?_congr hloadings,
        h.loading]
      rfl
    · change (s.recordLoaded a.call d).2.promise? r.promise = _
      rw [promise?, (Prod.mk.inj hduties).1]
      exact h.promise
    · exact (h.recorded.record hd hR hdistinct hsource hnone).of_modules rfl
  have hsingle₁ : s₁.Single := by
    obtain ⟨f, halters, -⟩ := s.checkAnswer_alters a
    rw [hcheck] at halters
    exact hsingle.alters halters
  have hgo : s₁.isLoading ⟨0⟩ = true := isLoading_iff.2 ⟨_, hseeks.loading, hseeks.going⟩
  have hreach : R.Reaches s₀ root d :=
    (h.books.reached _ hvisited).tail ⟨_, hlisted, hR⟩
  have hcome := hseeks.come hs hsingle₁ hcharts hreach
  simp only [takeAnswer, hcheck, hself, hgo, Bool.not_true, Bool.false_eq_true, if_false]
  exact hcome

/-- A request is answered with an error. -/
theorem Seeks.fail {a : LoadAnswer} {e : ErrorId} (hs : s₀.Unread)
    (h : s.Seeks R s₀ root W H r) (hsingle : s.Single) (ha : s.Heeds R a)
    (he : a.outcome = .error e) :
    (s.takeAnswer a).1.OnErrand R s₀ root ((s.takeAnswer a).2.toList ++ W) (.answered a :: H)
      r.promise := by
  obtain ⟨hself, hmem, hvisited, hlisted⟩ := ha.waits h hsingle
  have hdistinct := (hs.filed.entries a.call.referrer).distinct _
    (Entries.requests_subset_asked _ hlisted)
  have hcheck : s.checkAnswer a = (.error e, s.takeOutstanding a.call) := by
    simp only [checkAnswer, ha.isOutstanding hdistinct, he, if_true]
  have hR : R a.call.referrer a.call.request = none := by
    refine Option.eq_none_iff_forall_ne_some.2 fun d hd ↦ ?_
    have hok := (ha.2 d).2 hd
    rw [he] at hok
    contradiction
  set s₁ := s.takeOutstanding a.call with hs₁
  have hloading : s₁.loading? ⟨0⟩ = some { r with
      outstanding := r.outstanding.eraseP fun o ↦
        o.1 == a.call.referrer && o.2.same a.call.request } := by
    rw [hs₁, takeOutstanding, hself, loading?_modifyLoading, if_pos rfl, h.loading]
    rfl
  have hgo : s₁.isLoading ⟨0⟩ = true := isLoading_iff.2 ⟨_, hloading, h.going⟩
  have htaken : (s.takeAnswer a) = (s₁.failLoading ⟨0⟩ e, none) := by
    simp only [takeAnswer, hcheck, hself, hgo, Bool.not_true, Bool.false_eq_true, if_false]
  rw [htaken]
  have hmodules : (s₁.failLoading ⟨0⟩ e).modules = s.modules := modules_failLoading s₁ _ e
  have hended := loading?_failLoading s₁ ⟨0⟩ e ⟨0⟩
  rw [if_pos rfl, hloading, Option.map_some] at hended
  refine ⟨?_, h.recorded.quotes.trans (.of_modules hmodules), { r with
      isLoading := false
      outstanding := r.outstanding.eraseP fun o ↦
        o.1 == a.call.referrer && o.2.same a.call.request }, rfl,
    .inr (.inr ⟨hended, rfl, ?_, ?_, ?_⟩)⟩
  · have hworks := s.takeAnswer_works a
    rw [htaken] at hworks
    exact hsingle.works hworks
  · have hpending : s₁.promise? r.promise = some (.pending []) := h.promise
    refine ⟨e, ?_, a, [], H, rfl, he, fun b hb ↦ ?_⟩
    · refine promise?_failLoading (r := { r with
        outstanding := r.outstanding.eraseP fun o ↦
          o.1 == a.call.referrer && o.2.same a.call.request }) hloading ?_ ?_
      · rw [hpending]
        rfl
      · rw [outcome?, hpending]
        rfl
    · obtain ⟨d, hok, -⟩ := h.recorded.imported b hb
      exact ⟨d, hok⟩
  · exact ⟨_, _, h.books.reached _ hvisited, hlisted, hR⟩
  · intro x hx
    rw [status?, source?_congr hmodules x, ← status?]
    exact status?_of_new h.recorded.quotes h.recorded.new hx

/-- An operation that is over takes no more than note of an answer. -/
theorem Lost.answer {a : LoadAnswer} (h : s.Lost R s₀ root H r)
    (hsingle : s.Single) (hquotes : s₀.Quotes s) (ha : s.Heeds R a) :
    (s.takeAnswer a).1.OnErrand R s₀ root ((s.takeAnswer a).2.toList ++ W) (.answered a :: H)
      r.promise := by
  obtain ⟨hloading, hended, hfailed, hfails, hnew⟩ := h
  obtain ⟨hsame, hstatus⟩ := s.checkAnswer_quotes a
  obtain ⟨f, halters, hf⟩ := s.checkAnswer_alters a
  have hself : a.call.loading = ⟨0⟩ := by
    obtain ⟨⟨r', hr', -⟩, -⟩ := ha
    exact hsingle _ (by rw [hr']; rfl)
  obtain ⟨hp, hl, -⟩ := hf r
  rw [hself] at halters
  have hloading' := halters.self hloading
  have hover : (s.checkAnswer a).2.isLoading ⟨0⟩ = false := by
    rw [isLoading, hloading', Option.any_some, hl, hended]
  have htaken : s.takeAnswer a = ((s.checkAnswer a).2, none) := by
    simp only [takeAnswer, hself, hover, Bool.not_false, if_true]
  rw [htaken]
  refine ⟨hsingle.alters halters, hquotes.trans hsame, f r, hp, .inr (.inr ⟨hloading',
    hl.trans hended, ?_, hfails, fun x hx ↦ (hstatus x).trans (hnew x hx)⟩)⟩
  obtain ⟨e, he, hfirst⟩ := hfailed
  refine ⟨e, ?_, hfirst.append [_]⟩
  rw [hp, promise?, halters.promises]
  exact he

/-- The operation takes an answer. -/
theorem OnErrand.answer {a : LoadAnswer} (hs : s₀.Unread) (h : s.OnErrand R s₀ root W H p)
    (hc : s.Charts W []) (ha : s.Heeds R a) (hR : ∀ m q d, R m q = some d → (s₀.module? d).isSome) :
    (s.takeAnswer a).1.OnErrand R s₀ root ((s.takeAnswer a).2.toList ++ W) (.answered a :: H)
      p := by
  obtain ⟨hsingle, hquotes, r, rfl, hseeks | hfound | hlost⟩ := h
  · cases hd : a.outcome with
    | ok d =>
      refine hseeks.accept hs hsingle hc ha hd ?_
      rw [hquotes.isSome]
      exact hR _ _ d ((ha.2 d).1 hd)
    | error e => exact hseeks.fail hs hsingle ha hd
  · -- nothing is waited for any more
    obtain ⟨⟨r', hr', hmem⟩, -⟩ := ha
    have hself : a.call.loading = ⟨0⟩ := hsingle _ (by rw [hr']; rfl)
    rw [hself, hfound.loading] at hr'
    obtain rfl := Option.some.inj hr'
    rw [hfound.answered] at hmem
    exact absurd hmem List.not_mem_nil
  · exact hlost.answer hsingle hquotes ha

/-! ## What else happens to the operation -/

/-- A walk goes one step further, unless the operation is over. -/
theorem OnErrand.advance {w : LoadWalk} (hs : s₀.Unread) (h : s.OnErrand R s₀ root (w :: W) H p)
    (hc : s.Charts (w :: W) []) :
    (w.advance s).1.OnErrand R s₀ root ((w.advance s).2.walks ++ W)
      ((w.advance s).2.exchanges ++ H) p := by
  obtain ⟨hsingle, hquotes, r, rfl, hstands⟩ := h
  have hself : w.loading = ⟨0⟩ := hsingle _ (hc.walks _ List.mem_cons_self).1
  have hover : s.loading? ⟨0⟩ = some r → r.isLoading = false → w.advance s = (s, .done) :=
    fun hr hl ↦ by
      have hnot : s.isLoading w.loading = false := by
        rw [hself, isLoading, hr, Option.any_some, hl]
      simp only [LoadWalk.advance, hnot, Bool.not_false, if_true]
  rcases hstands with hseeks | hfound | hlost
  · exact hseeks.advance hs hsingle hc
  · rw [hover hfound.loading hfound.ended]
    exact ⟨hsingle, hquotes, r, rfl, .inr (.inl hfound)⟩
  · rw [hover hlost.loading hlost.ended]
    exact ⟨hsingle, hquotes, r, rfl, .inr (.inr hlost)⟩

/-- A change that has nothing to do with modules and operations. -/
theorem OnErrand.aside (h : s.OnErrand R s₀ root W H p) (hm : s'.modules = s.modules)
    (hl : s'.loadings = s.loadings)
    (hp : ∀ p, (s.promise? p).isSome → s'.promise? p = s.promise? p) :
    s'.OnErrand R s₀ root W H p := by
  have hload := loading?_congr hl
  have hstatus : ∀ x, s'.status? x = s.status? x := fun x ↦ by
    rw [status?, source?_congr hm, status?]
  have hsettled : ∀ {p P}, s.promise? p = some P → s'.promise? p = some P := fun {p P} hP ↦
    (hp p (by rw [hP]; rfl)).trans hP
  obtain ⟨hsingle, hquotes, r, rfl, hstands⟩ := h
  refine ⟨fun l hl ↦ hsingle l (hload l ▸ hl), hquotes.trans (.of_modules hm), r, rfl, ?_⟩
  rcases hstands with hseeks | hfound | hlost
  · exact .inl ⟨(hload _).trans hseeks.loading, hseeks.going, hseeks.counts,
      hsettled hseeks.promise, hseeks.books, hseeks.recorded.of_modules hm⟩
  · refine .inr (.inl ⟨(hload _).trans hfound.loading, hfound.ended, hfound.answered,
      hsettled hfound.promise, fun x hx q hq ↦ ?_, hfound.nodup, hfound.asked, fun x hx hreach ↦ ?_,
      fun x hx hreach ↦ ?_⟩)
    · obtain ⟨d, hR, hd⟩ := hfound.known x hx q hq
      exact ⟨d, hR, ((Copies.of_modules hm).imported x q).trans hd⟩
    · exact (hstatus x).trans (hfound.unlinked x hx hreach)
    · exact (hstatus x).trans (hfound.new x hx hreach)
  · obtain ⟨e, he, hfirst⟩ := hlost.failed
    exact .inr (.inr ⟨(hload _).trans hlost.loading, hlost.ended, ⟨e, hsettled he, hfirst⟩,
      hlost.fails, fun x hx ↦ (hstatus x).trans (hlost.new x hx)⟩)

theorem OnErrand.consult (h : s.OnErrand R s₀ root W H p) (hs : Consults s s') :
    s'.OnErrand R s₀ root W H p := by
  cases hs with
  | throw kind message => exact h.aside rfl rfl fun _ _ ↦ rfl
  | print line => exact h.aside rfl rfl fun _ _ ↦ rfl
  | putOff call =>
    have hdefer : (s.defer (.answerLoad call)) =
        (s.settledPromise (.ok ())).2.enqueue [⟨.answerLoad call, .ok ()⟩] := by
      simp only [defer, react, settledPromise, promise?_addPromise_self]
    rw [hdefer]
    refine h.aside (modules_enqueue _ _) (loadings_enqueue _ _) fun p hp ↦ ?_
    rw [promise?_enqueue]
    exact promise?_addPromise_of_isSome _ hp

/-- A call comes back. -/
theorem OnErrand.returned (h : s.OnErrand R s₀ root W H p) (result : Result) :
    s.OnErrand R s₀ root W (.returned result :: H) p := by
  obtain ⟨hsingle, hquotes, r, rfl, hstands⟩ := h
  refine ⟨hsingle, hquotes, r, rfl, ?_⟩
  rcases hstands with ⟨hloading, hgoing, hcounts, hpromise, hbooks, hrecorded⟩ | hfound | hlost
  · exact .inl ⟨hloading, hgoing, hcounts, hpromise, ⟨hbooks.nodup, hbooks.rooted, hbooks.reached,
      hbooks.asked, hbooks.answered⟩, hrecorded⟩
  · exact .inr (.inl ⟨hfound.loading, hfound.ended, hfound.answered, hfound.promise, hfound.known,
      hfound.nodup, hfound.asked, hfound.unlinked, hfound.new⟩)
  · obtain ⟨e, he, hfirst⟩ := hlost.failed
    exact .inr (.inr ⟨hlost.loading, hlost.ended, ⟨e, he, hfirst.append [_]⟩, hlost.fails,
      hlost.new⟩)

/-- Loading starts. -/
theorem Unread.startLoading (hs : s₀.Unread) (hroot : (s₀.source? root).isSome) (R : Catalog)
    (hostDefined : Option String) :
    (s₀.startLoading root hostDefined).2.2.OnErrand R s₀ root
      [(s₀.startLoading root hostDefined).2.1] [] (s₀.startLoading root hostDefined).1 := by
  have hid : (⟨s₀.loadings.size⟩ : LoadingId) = ⟨0⟩ := by rw [hs.loadings]; rfl
  set s₁ := s₀.opened hostDefined with hs₁
  have hloading : ∀ l, s₁.loading? l = if l = ⟨0⟩ then
      some { promise := s₀.newPromise.1, hostDefined := hostDefined } else none := by
    intro l
    rw [hs₁, loading?_opened, hid, show s₀.loading? l = none by simp [loading?, hs.loadings]]
  have hquotes : s₀.Quotes s₁ := .of_modules rfl
  have hdescends : s₁.descends ⟨0⟩ root = true := by
    have hnew := status?_of_new hquotes (fun m t ht ↦ (hs.source m t ht).1) hroot
    simp [descends, hnew, hloading]
  have hstart : s₀.startLoading root hostDefined = (s₀.newPromise.1,
      (LoadWalk.from s₁ ⟨0⟩ root).2, (LoadWalk.from s₁ ⟨0⟩ root).1) := by
    rw [← hid]
    rfl
  have hvisit : (s₁.visit ⟨0⟩ root).loading? ⟨0⟩ = some
      { promise := s₀.newPromise.1
        hostDefined := hostDefined
        visited := [root]
        pending := 1 + (s₁.entries root).requests.length } := by
    rw [Store.visit, loading?_modifyLoading, if_pos rfl, hloading, if_pos rfl]
    rfl
  have hbooks : Books R s₀ root [⟨⟨0⟩, [⟨root, (s₁.entries root).requests⟩]⟩] [] [root] [] := by
    refine ⟨List.nodup_singleton root, List.mem_singleton_self root, ?_, ?_, .nil⟩
    · exact List.forall_mem_singleton.2 .refl
    · simp [hquotes.entries, LoadWalk.wants, wants, askedIn]
  rw [hstart]
  simp only [LoadWalk.from, hdescends, if_true]
  refine ⟨fun l hl ↦ ?_, .of_modules rfl, _, rfl, .inl ⟨hvisit, rfl, Nat.le_add_right 1 _,
    s₀.promise?_newPromise, hbooks, ⟨.of_modules rfl, fun m t ht ↦ (hs.source m t ht).1,
      fun m t ht ↦ ?_, List.forall_mem_nil _⟩⟩⟩
  · by_contra hne
    rw [((s₁.visit_works ⟨0⟩ root).loading?_of_ne hne), hloading, if_neg hne] at hl
    contradiction
  · rw [(hs.source m t ht).2.1]
    exact List.forall_mem_nil _

end Store

end EcmaModules
