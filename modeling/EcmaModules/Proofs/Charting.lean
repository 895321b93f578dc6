import EcmaModules.Proofs.Confinement
import EcmaModules.Proofs.Requests
import Mathlib

/-!
# What loading has still to deal with

A loading operation counts. What it counts are the modules on the paths of its walks, the requests of
these that the walks have not come to, the requests that the host has not answered, and, within a
step, the module that it comes to next. Each request of each module that it has come to is among
these, or was given a module that is loaded or that the operation has come to as well. So when
nothing is left to be counted, the modules that it has come to request only each other and modules
that are loaded, and they can be taken to be loaded together.

No other operation can do harm to that. It may give modules to requests that had none, but never
other ones, and modules do not become new again.
-/

namespace EcmaModules

/-! ## What was given for requests -/

namespace Store

/-- The module has been loaded, or is a synthetic one. -/
def Old (s : Store) (m : ModuleId) : Prop := s.status? m ≠ some .new

/-- What was given for requests are modules, and no two of them for requests that ask for the same
one. -/
structure Filed (s : Store) : Prop where
  proper : ∀ m r, s.source? m = some r → r.entries.Proper
  distinct : ∀ m r, s.source? m = some r → ∀ e ∈ r.loaded, e.request.Distinct
  apart : ∀ m r, s.source? m = some r →
    r.loaded.Pairwise fun a b ↦ a.request.same b.request = false
  housed : ∀ m r, s.source? m = some r → ∀ e ∈ r.loaded, (s.module? e.module).isSome

/-- Every request of a module that has been loaded was given such a module. -/
def Rounded (s : Store) : Prop :=
  ∀ x, s.Old x → ∀ q ∈ (s.entries x).requests, ∃ d, s.imported? x q = some d ∧ s.Old d

/-- A change by which modules may be given to further requests, and be loaded. -/
structure Builds (s s' : Store) : Prop where
  entries : ∀ m, s'.entries m = s.entries m
  grows : Grows s s'
  old : ∀ m, s.Old m → s'.Old m

variable {s s' s'' : Store} {m x : ModuleId} {q q' : Request} {r : SourceText}

/-- The modules are the same by their texts and by what was given for their requests. -/
structure Copies (s s' : Store) : Prop where
  isSome : ∀ m, (s'.module? m).isSome = (s.module? m).isSome
  loaded : ∀ m, s'.loaded? m = s.loaded? m
  script : ∀ m, s'.script? m = s.script? m

theorem Copies.of_modules (h : s'.modules = s.modules) : s.Copies s' :=
  ⟨fun m ↦ by rw [module?, h, module?], fun m ↦ by rw [loaded?, source?_congr h, loaded?],
    fun m ↦ by rw [script?, source?_congr h, script?]⟩

theorem isSome_module? (s : Store) (m : ModuleId) :
    (s.module? m).isSome = ((s.script? m).isSome || (s.progress m).isSome) := by
  unfold script? progress source? synthetic?
  rcases s.module? m with _ | ⟨r | r, _, _, _, _, _⟩ <;> rfl

theorem Copies.of_same (h : Same s s') : s.Copies s' :=
  ⟨fun m ↦ by rw [isSome_module?, h.script, h.progress, isSome_module?], h.loaded, h.script⟩

theorem Copies.trans (h : s.Copies s') (h' : s'.Copies s'') : s.Copies s'' :=
  ⟨fun m ↦ (h'.isSome m).trans (h.isSome m), fun m ↦ (h'.loaded m).trans (h.loaded m), fun m ↦ (h'.script m).trans (h.script m)⟩

theorem Copies.entries (h : s.Copies s') (m : ModuleId) : s'.entries m = s.entries m := by
  rw [entries_eq, h.script, ← entries_eq]

theorem Copies.imported (h : s.Copies s') (m : ModuleId) (q : Request) :
    s'.imported? m q = s.imported? m q := by
  rw [imported?_eq, h.loaded, ← imported?_eq]

theorem old_congr (h : s'.modules = s.modules) (m : ModuleId) : s'.Old m ↔ s.Old m := by
  rw [Old, status?, source?_congr h, Old, status?]

theorem Builds.of_copies (h : s.Copies s') (hold : ∀ m, s.Old m → s'.Old m) : s.Builds s' :=
  ⟨h.entries, fun m q _ hd ↦ (h.imported m q).trans hd, hold⟩

theorem Builds.of_modules (h : s'.modules = s.modules) : s.Builds s' :=
  .of_copies (.of_modules h) fun m ↦ (old_congr h m).2

theorem Builds.of_furnishing (h : Furnishing s s') : s.Builds s' :=
  .of_copies (.of_same h.level.toSame) fun m hm ↦ by rwa [Old, h.level.status]

theorem Builds.of_apart (h : Apart s s') : s.Builds s' :=
  .of_furnishing h.furnishing

theorem Filed.copy (h : s.Filed) (hs : s.Copies s') : s'.Filed := by
  have hsource : ∀ m r', s'.source? m = some r' → ∃ r, s.source? m = some r ∧
      r'.loaded = r.loaded ∧ r'.entries = r.entries := fun m r' hr' ↦ by
    have hl := hs.loaded m
    have hscript := hs.script m
    simp only [loaded?, script?, hr', Option.map_some] at hl hscript
    obtain ⟨r, hr, heq⟩ := Option.map_eq_some_iff.1 hl.symm
    simp only [hr, Option.map_some, Option.some.injEq] at hscript
    exact ⟨r, hr, heq.symm, congrArg Prod.fst hscript⟩
  refine ⟨fun m r' hr' ↦ ?_, fun m r' hr' ↦ ?_, fun m r' hr' ↦ ?_, fun m r' hr' e hmem ↦ ?_⟩ <;>
    obtain ⟨r, hr, hl, he⟩ := hsource m r' hr'
  · exact he ▸ h.proper m r hr
  · exact hl ▸ h.distinct m r hr
  · exact hl ▸ h.apart m r hr
  · rw [hs.isSome]
    exact h.housed m r hr e (hl ▸ hmem)

theorem Filed.entries (h : s.Filed) (m : ModuleId) : (s.entries m).Proper := by
  unfold Store.entries
  rcases hr : s.source? m with _ | r
  · exact ⟨nofun, nofun⟩
  · exact h.proper m r hr

/-- Requests that ask for the same module were given the same one. -/
theorem Filed.imported_eq (h : s.Filed) (hq : q.Distinct) (hs : q.same q' = true) (m : ModuleId) :
    s.imported? m q = s.imported? m q' := by
  unfold imported?
  rcases hr : s.source? m with _ | r
  · rfl
  · have hfind : r.loaded.find? (·.request.same q) = r.loaded.find? (·.request.same q') := by
      rw [← List.head?_filter, ← List.head?_filter]
      refine congrArg List.head? (List.filter_congr fun e he ↦ Bool.eq_iff_iff.2 ?_)
      have hd := h.distinct m r hr e he
      exact ⟨fun hq' ↦ hd.same_trans hq' hs,
        fun hq' ↦ hd.same_trans hq' (hq.same_symm hs)⟩
    simp only [Option.bind_some, hfind]

/-- A request that was given a module matches one entry, and no other one. -/
theorem Filed.filter_eq (h : s.Filed) (hr : s.source? m = some r) (hx : s.imported? m q = some x) :
    ∃ e ∈ r.loaded, r.loaded.filter (·.request.same q) = [e] ∧ e.module = x := by
  simp only [imported?, hr, Option.bind_some, Option.map_eq_some_iff] at hx
  obtain ⟨e, he, rfl⟩ := hx
  have hpair : (r.loaded.filter (·.request.same q)).Pairwise fun _ _ ↦ False := by
    refine ((h.apart m r hr).filter _).imp_of_mem fun {a b} ha hb hab ↦ ?_
    obtain ⟨ha, hqa⟩ := List.mem_filter.1 ha
    obtain ⟨hb, hqb⟩ := List.mem_filter.1 hb
    have hsame := (h.distinct m r hr a ha).same_trans hqa
      ((h.distinct m r hr b hb).same_symm hqb)
    exact absurd (hsame.symm.trans hab) (by simp)
  rw [← List.head?_filter] at he
  obtain ⟨rest, hrest⟩ := List.head?_eq_some_iff.1 he
  have hmem : e ∈ r.loaded := List.mem_of_mem_filter (hrest ▸ List.mem_cons_self)
  rw [hrest] at hpair ⊢
  refine ⟨e, hmem, congrArg (e :: ·) (List.eq_nil_iff_forall_not_mem.2 fun y hy ↦ ?_), rfl⟩
  exact (List.pairwise_cons.1 hpair).1 y hy

theorem Rounded.copy (h : s.Rounded) (hs : s.Copies s') (hold : ∀ m, s'.Old m ↔ s.Old m) :
    s'.Rounded := fun x hx q hq ↦ by
  rw [hs.entries] at hq
  obtain ⟨d, hd, hod⟩ := h x ((hold x).1 hx) q hq
  exact ⟨d, (hs.imported x q).trans hd, (hold d).2 hod⟩

/-! ### Modules whose graphs are loaded -/

theorem markLoaded_same (s : Store) (m : ModuleId) : Same s (s.markLoaded m) := by
  refine Aside.same (.modifySource s m fun r _ ↦ ?_)
  by_cases hs : r.status = .new
  · rw [if_pos hs]
    exact ⟨by simp [SourceText.outline, hs, Status.outline, Status.isWalked], rfl, rfl, rfl⟩
  · rw [if_neg hs]
    exact ⟨rfl, rfl, rfl, rfl⟩

theorem old_markLoaded : (s.markLoaded m).Old x ↔ s.Old x ∨ x = m := by
  simp only [Old, markLoaded, status?_modifySource]
  by_cases hx : x = m
  · simp only [hx, if_true, or_true, iff_true]
    rcases s.source? m with _ | r
    · exact nofun
    · by_cases hs : r.status = .new <;> simp [hs]
  · simp [hx]

theorem foldl_markLoaded (ms : List ModuleId) (s : Store) :
    Same s (ms.foldl markLoaded s) ∧ ∀ x, (ms.foldl markLoaded s).Old x ↔ s.Old x ∨ x ∈ ms := by
  induction ms generalizing s with
  | nil => exact ⟨(Aside.refl s).steady.toSame, fun x ↦ by simp⟩
  | cons m ms ih =>
    obtain ⟨hsame, hold⟩ := ih (s.markLoaded m)
    refine ⟨(markLoaded_same s m).trans hsame, fun x ↦ ?_⟩
    rw [List.foldl_cons, hold, old_markLoaded, List.mem_cons, or_assoc]

theorem size_loadings_finishDescent (s : Store) (l : LoadingId) :
    (s.finishDescent l).loadings.size = s.loadings.size := by
  unfold finishDescent
  split
  · rfl
  · dsimp only
    split
    · refine (congrArg Array.size (loadings_settle _ _ _)).trans ?_
      rw [(foldl_markLoaded _ _).1.loadings]
      simp [modifyLoading]
    · simp [modifyLoading]

theorem isSome_loading? (s : Store) (l : LoadingId) :
    (s.loading? l).isSome ↔ l.index < s.loadings.size := by
  refine ⟨fun h ↦ ?_, fun h ↦ ?_⟩
  · obtain ⟨r, hr⟩ := Option.isSome_iff_exists.1 h
    exact (Array.getElem?_eq_some_iff.1 hr).1
  · rw [loading?, Array.getElem?_eq_getElem h]
    rfl

end Store

/-! ## What is left to an operation -/

/-- What a walk has to deal with: the modules on its path, and their requests that it has not come
to. -/
def LoadWalk.weight (w : LoadWalk) : Nat := (w.frames.map fun f ↦ f.requests.length + 1).sum

theorem LoadWalk.weight_nil (l : LoadingId) : (⟨l, []⟩ : LoadWalk).weight = 0 := rfl

theorem LoadWalk.weight_cons (l : LoadingId) (f : LoadFrame) (fs : List LoadFrame) :
    (⟨l, f :: fs⟩ : LoadWalk).weight = f.requests.length + 1 + (⟨l, fs⟩ : LoadWalk).weight := rfl

/-- The walks of an operation. -/
def walksOf (W : List LoadWalk) (l : LoadingId) : List LoadWalk := W.filter (·.loading = l)

/-- The modules that an operation comes to next. -/
def targetsOf (T : List (LoadingId × ModuleId)) (l : LoadingId) : List ModuleId :=
  (T.filter (·.1 = l)).map (·.2)

/-- The request is one that the operation still has to deal with, or it was given a module that is
loaded or that the operation comes to. -/
def Loading.Minds (s : Store) (W : List LoadWalk) (T : List ModuleId) (r : Loading) (x : ModuleId)
    (q : Request) : Prop :=
  (∃ w ∈ W, ∃ f ∈ w.frames, f.module = x ∧ q ∈ f.requests) ∨ (x, q) ∈ r.outstanding ∨
    ∃ d, s.imported? x q = some d ∧ (s.Old d ∨ d ∈ r.visited ∨ d ∈ T)

/-- What an operation with the given walks, which comes to the given modules next, has still to deal
with. -/
structure Loading.Charted (s : Store) (W : List LoadWalk) (T : List ModuleId) (r : Loading) : Prop where
  pending : r.pending = (W.map (·.weight)).sum + r.outstanding.length + T.length
  frames : ∀ w ∈ W, ∀ f ∈ w.frames, f.module ∈ r.visited
  minds : ∀ x ∈ r.visited, ∀ q ∈ (s.entries x).requests, r.Minds s W T x q

/-- What the operations that go on have still to deal with. -/
structure Store.Charts (s : Store) (W : List LoadWalk) (T : List (LoadingId × ModuleId)) : Prop where
  charted : ∀ l r, s.loading? l = some r → r.isLoading = true →
    r.Charted s (walksOf W l) (targetsOf T l)
  walks : ∀ w ∈ W, (s.loading? w.loading).isSome ∧
    ∀ f ∈ w.frames, ∀ q ∈ f.requests, q ∈ (s.entries f.module).requests
  targets : ∀ t ∈ T, (s.loading? t.1).isSome
  outstanding : ∀ l r, s.loading? l = some r → ∀ o ∈ r.outstanding,
    o.2 ∈ (s.entries o.1).requests
  filed : s.Filed
  rounded : s.Rounded

section

variable {W : List LoadWalk} {T : List (LoadingId × ModuleId)} {w : LoadWalk} {l l' : LoadingId}
  {d : ModuleId}

theorem walksOf_cons_self (h : w.loading = l) : walksOf (w :: W) l = w :: walksOf W l := by
  simp [walksOf, h]

theorem walksOf_cons_ne (h : w.loading ≠ l) : walksOf (w :: W) l = walksOf W l := by
  simp [walksOf, h]

theorem targetsOf_cons_self : targetsOf ((l, d) :: T) l = d :: targetsOf T l := by
  simp [targetsOf]

theorem targetsOf_cons_ne (h : l' ≠ l) : targetsOf ((l', d) :: T) l = targetsOf T l := by
  simp [targetsOf, h]

theorem loading_of_mem_walksOf (h : w ∈ walksOf W l) : w ∈ W ∧ w.loading = l := by
  simpa [walksOf] using h

end

namespace Loading

variable {s s' : Store} {W W' : List LoadWalk} {T T' : List ModuleId} {r r' : Loading}
  {x : ModuleId} {q : Request}

theorem Minds.builds (hs : s.Builds s') (h : r.Minds s W T x q) : r.Minds s' W T x q :=
  h.imp_right <| Or.imp_right fun ⟨d, hd, h⟩ ↦ ⟨d, hs.grows x q d hd, h.imp_left (hs.old d)⟩

/-- What an operation minds may be dealt with in another way. -/
theorem Minds.elim (h : r.Minds s W T x q)
    (hW : ∀ w ∈ W, ∀ f ∈ w.frames, f.module = x → q ∈ f.requests → r'.Minds s W' T' x q)
    (ho : (x, q) ∈ r.outstanding → r'.Minds s W' T' x q)
    (hv : ∀ d, d ∈ r.visited ∨ d ∈ T → s.Old d ∨ d ∈ r'.visited ∨ d ∈ T') :
    r'.Minds s W' T' x q := by
  rcases h with ⟨w, hw, f, hf, hx, hq⟩ | hout | ⟨d, hd, h⟩
  · exact hW w hw f hf hx hq
  · exact ho hout
  · exact .inr (.inr ⟨d, hd, h.elim .inl (hv d)⟩)

theorem Charted.builds (hs : s.Builds s') (h : r.Charted s W T) : r.Charted s' W T :=
  ⟨h.pending, h.frames, fun x hx q hq ↦ (h.minds x hx q (hs.entries x ▸ hq)).builds hs⟩

/-- A walk is through with the first request of the module that it is at. -/
theorem Charted.next {l : LoadingId} {m : ModuleId} {qs : List Request} {fs : List LoadFrame}
    (h : r.Charted s (⟨l, ⟨m, q :: qs⟩ :: fs⟩ :: W) T) (hp : r'.pending = r.pending)
    (hv : r'.visited = r.visited) (ho : ∀ o ∈ r.outstanding, o ∈ r'.outstanding) (hT : T ⊆ T')
    (hcount : r'.outstanding.length + T'.length = r.outstanding.length + T.length + 1)
    (hq : r'.Minds s (⟨l, ⟨m, qs⟩ :: fs⟩ :: W) T' m q) :
    r'.Charted s (⟨l, ⟨m, qs⟩ :: fs⟩ :: W) T' := by
  refine ⟨?_, ?_, fun x hx y hy ↦ ?_⟩
  · have := h.pending
    simp only [List.map_cons, List.sum_cons, LoadWalk.weight_cons, List.length_cons] at this ⊢
    omega
  · have hframes := h.frames
    rw [List.forall_mem_cons, List.forall_mem_cons] at hframes
    rw [hv]
    exact List.forall_mem_cons.2 ⟨List.forall_mem_cons.2 hframes.1, hframes.2⟩
  · rw [hv] at hx
    refine (h.minds x hx y hy).elim (fun w hw f hf hfx hyf ↦ ?_) (fun h ↦ .inr (.inl (ho _ h)))
      fun z hz ↦ .inr (hz.imp (fun h ↦ hv.symm ▸ h) (hT ·))
    rcases List.mem_cons.1 hw with rfl | hw
    · rcases List.mem_cons.1 hf with rfl | hf
      · obtain rfl : m = x := hfx
        rcases List.mem_cons.1 hyf with rfl | hyf
        · exact hq
        · exact .inl ⟨_, List.mem_cons_self, _, List.mem_cons_self, rfl, hyf⟩
      · exact .inl ⟨_, List.mem_cons_self, f, List.mem_cons_of_mem _ hf, hfx, hyf⟩
    · exact .inl ⟨w, List.mem_cons_of_mem _ hw, f, hf, hfx, hyf⟩

end Loading

namespace Store.Charts

variable {s s' : Store} {W : List LoadWalk} {T : List (LoadingId × ModuleId)} {w : LoadWalk}
  {l : LoadingId} {m d : ModuleId} {q : Request} {qs : List Request} {fs gs : List LoadFrame}

/-- One operation goes on, and what becomes of modules is nothing to the others. -/
theorem change {W' : List LoadWalk} {T' : List (LoadingId × ModuleId)} (h : s.Charts W T)
    (hs : s.Builds s') (hfiled : s'.Filed) (hrounded : s'.Rounded)
    (hother : ∀ x, x ≠ l → s'.loading? x = s.loading? x ∧ walksOf W' x = walksOf W x ∧
      targetsOf T' x = targetsOf T x)
    (hself : ∀ r', s'.loading? l = some r' → ∃ r, s.loading? l = some r ∧
      (∀ o ∈ r'.outstanding, o ∈ r.outstanding ∨ o.2 ∈ (s.entries o.1).requests) ∧
        (r'.isLoading = true → r'.Charted s' (walksOf W' l) (targetsOf T' l)))
    (hsome : ∀ x, (s.loading? x).isSome → (s'.loading? x).isSome)
    (hwalks : ∀ w ∈ W', (s.loading? w.loading).isSome ∧
      ∀ f ∈ w.frames, ∀ q ∈ f.requests, q ∈ (s.entries f.module).requests)
    (htargets : ∀ t ∈ T', (s.loading? t.1).isSome) : s'.Charts W' T' := by
  refine ⟨fun x r hr hl ↦ ?_, fun w hw ↦ ⟨hsome _ (hwalks w hw).1, ?_⟩,
    fun t ht ↦ hsome _ (htargets t ht), fun x r hr o ho ↦ ?_, hfiled, hrounded⟩
  · by_cases hx : x = l
    · subst hx
      obtain ⟨-, -, -, hcharted⟩ := hself r hr
      exact hcharted hl
    · obtain ⟨hsame, hW, hT⟩ := hother x hx
      rw [hW, hT]
      exact (h.charted x r (hsame ▸ hr) hl).builds hs
  · simp only [hs.entries]
    exact (hwalks w hw).2
  · rw [hs.entries]
    by_cases hx : x = l
    · subst hx
      obtain ⟨r₀, hr₀, hout, -⟩ := hself r hr
      exact (hout o ho).elim (h.outstanding x r₀ hr₀ o) id
    · exact h.outstanding x r ((hother x hx).1 ▸ hr) o ho

theorem walksOf_append {ws : List LoadWalk} (hws : ∀ w ∈ ws, w.loading = l) :
    walksOf (ws ++ W) l = ws ++ walksOf W l ∧ ∀ x, x ≠ l → walksOf (ws ++ W) x = walksOf W x := by
  refine ⟨?_, fun x hx ↦ ?_⟩
  · rw [walksOf, List.filter_append, List.filter_eq_self.2 fun w hw ↦ by simp [hws w hw]]
    rfl
  · rw [walksOf, List.filter_append,
      List.filter_eq_nil_iff.2 fun w hw ↦ by simp [hws w hw, Ne.symm hx]]
    rfl

theorem targetsOf_append (l : LoadingId) (ts : List ModuleId) :
    targetsOf (ts.map (l, ·) ++ T) l = ts ++ targetsOf T l ∧
      ∀ x, x ≠ l → targetsOf (ts.map (l, ·) ++ T) x = targetsOf T x := by
  induction ts with
  | nil => exact ⟨rfl, fun _ _ ↦ rfl⟩
  | cons d ts ih =>
    refine ⟨?_, fun x hx ↦ ?_⟩
    · rw [List.map_cons, List.cons_append, targetsOf_cons_self, ih.1, List.cons_append]
    · rw [List.map_cons, List.cons_append, targetsOf_cons_ne (Ne.symm hx), ih.2 x hx]

/-- One operation goes on, and modules stay as they are. -/
theorem update {f : Loading → Loading} (ws ws' : List LoadWalk) (ts ts' : List ModuleId)
    (h : s.Charts (ws ++ W) (ts.map (l, ·) ++ T)) (hm : s'.modules = s.modules)
    (hload : ∀ x, s'.loading? x = if x = l then (s.loading? x).map f else s.loading? x)
    (hl : (s.loading? l).isSome) (hws : ∀ w ∈ ws, w.loading = l) (hws' : ∀ w ∈ ws', w.loading = l)
    (hreq : ∀ w ∈ ws', ∀ f ∈ w.frames, ∀ q ∈ f.requests, q ∈ (s.entries f.module).requests)
    (hf : ∀ r, s.loading? l = some r →
      (∀ o ∈ (f r).outstanding, o ∈ r.outstanding ∨ o.2 ∈ (s.entries o.1).requests) ∧
        ((f r).isLoading = true → r.isLoading = true ∧
          (r.Charted s (ws ++ walksOf W l) (ts ++ targetsOf T l) →
            (f r).Charted s (ws' ++ walksOf W l) (ts' ++ targetsOf T l)))) :
    s'.Charts (ws' ++ W) (ts'.map (l, ·) ++ T) := by
  have hsome : ∀ x, (s'.loading? x).isSome = (s.loading? x).isSome := fun x ↦ by
    rw [hload]
    split <;> simp
  refine h.change (l := l) (.of_modules hm) (h.filed.copy (.of_modules hm))
    (h.rounded.copy (.of_modules hm) (old_congr hm)) (fun x hx ↦ ⟨?_, ?_, ?_⟩) (fun r' hr' ↦ ?_)
    (fun x hx ↦ (hsome x).symm ▸ hx) (fun w hw ↦ ?_) fun t ht ↦ ?_
  · rw [hload, if_neg hx]
  · rw [(walksOf_append hws').2 x hx, (walksOf_append hws).2 x hx]
  · rw [(targetsOf_append l ts').2 x hx, (targetsOf_append l ts).2 x hx]
  · rw [hload, if_pos rfl] at hr'
    obtain ⟨r, hr, rfl⟩ := Option.map_eq_some_iff.1 hr'
    obtain ⟨hout, hgo⟩ := hf r hr
    refine ⟨r, hr, hout, fun hlr ↦ ?_⟩
    obtain ⟨hlr, hcharted⟩ := hgo hlr
    have := h.charted l r hr hlr
    rw [(walksOf_append hws).1, (targetsOf_append l ts).1] at this
    rw [(walksOf_append hws').1, (targetsOf_append l ts').1]
    exact (hcharted this).builds (.of_modules hm)
  · rcases List.mem_append.1 hw with hw | hw
    · exact ⟨(hws' w hw).symm ▸ hl, hreq w hw⟩
    · exact h.walks w (List.mem_append_right _ hw)
  · rcases List.mem_append.1 ht with ht | ht
    · obtain ⟨d, -, rfl⟩ := List.mem_map.1 ht
      exact hl
    · exact h.targets t (List.mem_append_right _ ht)

/-! ### What operations do -/

theorem modules_modifyLoading (s : Store) (l : LoadingId) (f : Loading → Loading) :
    (s.modifyLoading l f).modules = s.modules := rfl

/-- A change of the lists only. -/
theorem relist (ws ws' : List LoadWalk) (ts ts' : List ModuleId)
    (h : s.Charts (ws ++ W) (ts.map (l, ·) ++ T)) (hl : (s.loading? l).isSome)
    (hws : ∀ w ∈ ws, w.loading = l) (hws' : ∀ w ∈ ws', w.loading = l)
    (hreq : ∀ w ∈ ws', ∀ f ∈ w.frames, ∀ q ∈ f.requests, q ∈ (s.entries f.module).requests)
    (hf : ∀ r, s.loading? l = some r → r.isLoading = true →
      r.Charted s (ws ++ walksOf W l) (ts ++ targetsOf T l) →
        r.Charted s (ws' ++ walksOf W l) (ts' ++ targetsOf T l)) :
    s.Charts (ws' ++ W) (ts'.map (l, ·) ++ T) :=
  h.update (f := id) ws ws' ts ts' rfl (fun x ↦ by simp) hl hws hws' hreq fun r hr ↦
    ⟨fun _ ↦ .inl, fun hlr ↦ ⟨hlr, hf r hr hlr⟩⟩

/-- An operation comes to a module. -/
theorem visit (h : s.Charts W ((l, d) :: T)) (hd : s.descends l d = true) :
    (s.visit l d).Charts (⟨l, [⟨d, (s.entries d).requests⟩]⟩ :: W) T := by
  refine h.update [] [_] [d] [] rfl
    (s.loading?_modifyLoading l _) (h.targets _ List.mem_cons_self) nofun
    (fun w hw ↦ (List.mem_singleton.1 hw) ▸ rfl) (fun w hw f hf q hq ↦ ?_) fun r hr ↦
      ⟨fun _ ↦ .inl, fun hlr ↦ ⟨hlr, fun hc ↦ ?_⟩⟩
  · obtain rfl := List.mem_singleton.1 hw
    obtain rfl := List.mem_singleton.1 hf
    exact hq
  · refine ⟨?_, fun w hw f hf ↦ ?_, fun x hx q hq ↦ ?_⟩
    · have := hc.pending
      simp only [List.nil_append, List.singleton_append, List.length_cons] at this
      simp only [List.singleton_append, List.map_cons, List.sum_cons, LoadWalk.weight_cons,
        LoadWalk.weight_nil, List.nil_append]
      omega
    · rcases List.mem_cons.1 hw with rfl | hw
      · obtain rfl := List.mem_singleton.1 hf
        exact List.mem_append_right _ (List.mem_singleton.2 rfl)
      · exact List.mem_append_left _ (hc.frames w hw f hf)
    · rcases List.mem_append.1 hx with hx | hx
      · refine (hc.minds x hx q hq).elim (fun w hw f hf hfx hq ↦ ?_) (fun ho ↦ .inr (.inl ho))
          fun y hy ↦ ?_
        · exact .inl ⟨w, List.mem_cons_of_mem _ hw, f, hf, hfx, hq⟩
        · rcases hy with hy | hy
          · exact .inr (.inl (List.mem_append_left _ hy))
          · rcases List.mem_cons.1 hy with rfl | hy
            · exact .inr (.inl (List.mem_append_right _ (List.mem_singleton.2 rfl)))
            · exact .inr (.inr hy)
      · obtain rfl := List.mem_singleton.1 hx
        exact .inl ⟨_, List.mem_cons_self, _, List.mem_singleton.2 rfl, rfl, hq⟩

/-- What the frames of a walk say when it has gone through a request. -/
theorem walks_next (h : s.Charts (⟨l, ⟨m, q :: qs⟩ :: fs⟩ :: W) T) :
    (s.loading? l).isSome ∧ q ∈ (s.entries m).requests ∧
      ∀ w ∈ [(⟨l, ⟨m, qs⟩ :: fs⟩ : LoadWalk)], ∀ f ∈ w.frames, ∀ q ∈ f.requests,
        q ∈ (s.entries f.module).requests := by
  obtain ⟨hl, hreq⟩ := h.walks _ List.mem_cons_self
  rw [List.forall_mem_cons, List.forall_mem_cons] at hreq
  refine ⟨hl, hreq.1.1, fun w hw ↦ ?_⟩
  obtain rfl := List.mem_singleton.1 hw
  exact List.forall_mem_cons.2 ⟨hreq.1.2, hreq.2⟩

/-- A request is put to the host. -/
theorem ask (h : s.Charts (⟨l, ⟨m, q :: qs⟩ :: fs⟩ :: W) T) :
    (s.modifyLoading l fun r ↦ { r with outstanding := r.outstanding ++ [(m, q)] }).Charts
      (⟨l, ⟨m, qs⟩ :: fs⟩ :: W) T := by
  obtain ⟨hl, hmem, hreq⟩ := h.walks_next
  refine h.update [_] [_] [] [] rfl
    (s.loading?_modifyLoading l _) hl (fun w hw ↦ (List.mem_singleton.1 hw) ▸ rfl)
    (fun w hw ↦ (List.mem_singleton.1 hw) ▸ rfl) hreq fun r hr ↦
      ⟨fun o ho ↦ ?_, fun hlr ↦ ⟨hlr, fun hc ↦ ?_⟩⟩
  · refine (List.mem_append.1 ho).imp_right fun ho ↦ ?_
    rw [List.mem_singleton.1 ho]
    exact hmem
  · refine hc.next rfl rfl (fun o ho ↦ List.mem_append_left _ ho) (List.Subset.refl _) ?_ ?_
    · simp only [List.length_append, List.length_singleton]
      omega
    · exact .inr (.inl (List.mem_append_right _ (List.mem_singleton.2 rfl)))

/-- A walk comes to a request that was given a module. -/
theorem follow (h : s.Charts (⟨l, ⟨m, q :: qs⟩ :: fs⟩ :: W) T) (hd : s.imported? m q = some d) :
    s.Charts (⟨l, ⟨m, qs⟩ :: fs⟩ :: W) ((l, d) :: T) := by
  obtain ⟨hl, -, hreq⟩ := h.walks_next
  refine h.relist [_] [_] [] [d] hl
    (fun w hw ↦ (List.mem_singleton.1 hw) ▸ rfl) (fun w hw ↦ (List.mem_singleton.1 hw) ▸ rfl)
    hreq fun r hr _ hc ↦ ?_
  refine hc.next rfl rfl (fun _ ↦ id) (List.subset_cons_self _ _) ?_ ?_
  · simp only [List.nil_append, List.singleton_append, List.length_cons]
    omega
  · exact .inr (.inr ⟨d, hd, .inr (.inr List.mem_cons_self)⟩)

/-- A walk is through with the module that it is at. -/
theorem finish (h : s.Charts (⟨l, ⟨m, []⟩ :: fs⟩ :: W) T) :
    s.Charts (⟨l, fs⟩ :: W) ((l, m) :: T) := by
  obtain ⟨hl, hreq⟩ := h.walks _ List.mem_cons_self
  refine h.relist [_] [_] [] [m] hl
    (fun w hw ↦ (List.mem_singleton.1 hw) ▸ rfl) (fun w hw ↦ (List.mem_singleton.1 hw) ▸ rfl)
    (fun w hw f hf ↦ ?_) fun r hr _ hc ↦ ⟨?_, ?_, fun x hx y hy ↦ ?_⟩
  · obtain rfl := List.mem_singleton.1 hw
    exact hreq f (List.mem_cons_of_mem _ hf)
  · have := hc.pending
    simp only [List.singleton_append, List.map_cons, List.sum_cons, LoadWalk.weight_cons,
      List.length_nil, List.nil_append] at this
    simp only [List.singleton_append, List.map_cons, List.sum_cons, List.length_cons]
    omega
  · have hframes := hc.frames
    rw [List.singleton_append, List.forall_mem_cons, List.forall_mem_cons] at hframes
    exact List.forall_mem_cons.2 ⟨hframes.1.2, hframes.2⟩
  · refine (hc.minds x hx y hy).elim (fun w hw f hf hfx hyf ↦ ?_) (fun h ↦ .inr (.inl h))
      fun z hz ↦ .inr (hz.imp_right (List.mem_cons_of_mem _))
    rcases List.mem_cons.1 hw with rfl | hw
    · rcases List.mem_cons.1 hf with rfl | hf
      · exact absurd hyf List.not_mem_nil
      · exact .inl ⟨_, List.mem_cons_self, f, hf, hfx, hyf⟩
    · exact .inl ⟨w, List.mem_cons_of_mem _ hw, f, hf, hfx, hyf⟩

/-- A walk goes on where another one of the operation has come to. -/
theorem join (h : s.Charts (⟨l, fs⟩ :: ⟨l, gs⟩ :: W) T) : s.Charts (⟨l, fs ++ gs⟩ :: W) T := by
  have hall : ∀ {P : LoadFrame → Prop}, (∀ f ∈ fs, P f) → (∀ f ∈ gs, P f) → ∀ f ∈ fs ++ gs, P f :=
    fun hf hg ↦ List.forall_mem_append.2 ⟨hf, hg⟩
  have hwalks := h.walks
  rw [List.forall_mem_cons, List.forall_mem_cons] at hwalks
  refine h.relist [_, _] [_] [] [] hwalks.1.1
    (fun w hw ↦ by simp only [List.mem_cons, List.not_mem_nil, or_false] at hw; rcases hw with rfl | rfl <;> rfl)
    (fun w hw ↦ (List.mem_singleton.1 hw) ▸ rfl)
    (fun w hw ↦ ?_) fun r hr _ hc ↦ ⟨?_, ?_, fun x hx y hy ↦ ?_⟩
  · obtain rfl := List.mem_singleton.1 hw
    exact hall hwalks.1.2 hwalks.2.1.2
  · have := hc.pending
    simp only [List.cons_append, List.nil_append, List.map_cons, List.sum_cons,
      LoadWalk.weight] at this
    simp only [List.cons_append, List.nil_append, List.map_cons, List.sum_cons, LoadWalk.weight,
      List.map_append, List.sum_append]
    omega
  · have hframes := hc.frames
    rw [List.cons_append, List.cons_append, List.forall_mem_cons, List.forall_mem_cons] at hframes
    exact List.forall_mem_cons.2 ⟨hall hframes.1 hframes.2.1, hframes.2.2⟩
  · refine (hc.minds x hx y hy).elim (fun w hw f hf hfx hyf ↦ ?_) (fun h ↦ .inr (.inl h))
      fun z hz ↦ .inr hz
    rcases List.mem_cons.1 hw with rfl | hw
    · exact .inl ⟨_, List.mem_cons_self, f, List.mem_append_left _ hf, hfx, hyf⟩
    · rcases List.mem_cons.1 hw with rfl | hw
      · exact .inl ⟨_, List.mem_cons_self, f, List.mem_append_right _ hf, hfx, hyf⟩
      · exact .inl ⟨w, List.mem_cons_of_mem _ hw, f, hf, hfx, hyf⟩

/-- A walk that has nowhere to go. -/
theorem begin (h : s.Charts W T) (hl : (s.loading? w.loading).isSome) (hw : w.frames = []) :
    s.Charts (w :: W) T := by
  refine h.relist (l := w.loading) [] [w] [] [] hl nofun
    (fun v hv ↦ (List.mem_singleton.1 hv) ▸ rfl) (fun v hv ↦ ?_) fun r hr hlr hc ↦ ?_
  · obtain rfl := List.mem_singleton.1 hv
    rw [hw]
    exact nofun
  · refine ⟨?_, List.forall_mem_cons.2 ⟨by rw [hw]; exact nofun, hc.frames⟩, fun x hx y hy ↦ ?_⟩
    · have := hc.pending
      simp only [List.nil_append, List.singleton_append, List.map_cons, List.sum_cons,
        LoadWalk.weight, hw, List.map_nil, List.sum_nil, Nat.zero_add] at this ⊢
      exact this
    · exact (hc.minds x hx y hy).imp_left fun ⟨v, hv, h⟩ ↦ ⟨v, List.mem_cons_of_mem _ hv, h⟩

/-- A walk has come to its end, or is one of an operation that is over. -/
theorem forget (h : s.Charts (w :: W) T) (hw : w.frames = [] ∨ s.isLoading w.loading = false) :
    s.Charts W T := by
  obtain ⟨hl, -⟩ := h.walks w List.mem_cons_self
  refine h.relist (l := w.loading) [w] [] [] [] hl
    (fun v hv ↦ (List.mem_singleton.1 hv) ▸ rfl) nofun nofun fun r hr hlr hc ↦ ?_
  have hnil : w.frames = [] := hw.resolve_right fun hnot ↦ by simp [isLoading, hr, hlr] at hnot
  refine ⟨?_, fun v hv ↦ hc.frames v (List.mem_cons_of_mem _ hv), fun x hx y hy ↦ ?_⟩
  · have := hc.pending
    simp only [List.singleton_append, List.map_cons, List.sum_cons, LoadWalk.weight, hnil,
      List.map_nil, List.sum_nil] at this
    simpa [LoadWalk.weight] using this
  · refine (hc.minds x hx y hy).elim (fun v hv f hf hfx hyf ↦ ?_) (fun h ↦ .inr (.inl h))
      fun z hz ↦ .inr hz
    rcases List.mem_cons.1 hv with rfl | hv
    · rw [hnil] at hf
      exact absurd hf List.not_mem_nil
    · exact .inl ⟨v, hv, f, hf, hfx, hyf⟩

/-- An operation has come to a module that it need not go through. -/
theorem met_of_descends {r : Loading} (hr : s.loading? l = some r) (hd : s.descends l d = false) :
    s.Old d ∨ d ∈ r.visited := by
  simp only [descends, hr, Option.any_some, Bool.and_eq_false_iff, beq_eq_false_iff_ne,
    Bool.not_eq_false', List.contains_iff_mem] at hd
  exact hd

/-- The last module is dealt with: nothing is asked any more, the walks are at their ends, and what
the operation has come to is closed. -/
theorem last {r : Loading} (hc : r.Charted s (walksOf W l) (d :: targetsOf T l))
    (hd : s.Old d ∨ d ∈ r.visited) (hlast : r.pending = 1) :
    r.outstanding = [] ∧ (∀ w ∈ walksOf W l, w.frames = []) ∧ ∀ x ∈ r.visited,
      ∀ q ∈ (s.entries x).requests, ∃ y, s.imported? x q = some y ∧ (s.Old y ∨ y ∈ r.visited) := by
  have hcount := hc.pending
  simp only [List.length_cons] at hcount
  have hout : r.outstanding = [] := List.eq_nil_of_length_eq_zero (by omega)
  have htargets : targetsOf T l = [] := List.eq_nil_of_length_eq_zero (by omega)
  have hframes : ∀ w ∈ walksOf W l, w.frames = [] := fun w hw ↦ by
    have hzero := List.sum_eq_zero_iff.1 (show ((walksOf W l).map (·.weight)).sum = 0 by omega)
      w.weight (List.mem_map_of_mem hw)
    rcases hf : w.frames with _ | ⟨f, fs⟩
    · rfl
    · simp only [LoadWalk.weight, hf, List.map_cons, List.sum_cons] at hzero
      omega
  refine ⟨hout, hframes, fun x hx q hq ↦ ?_⟩
  rcases hc.minds x hx q hq with ⟨w, hw, f, hf, -⟩ | ho | ⟨y, hy, ho⟩
  · rw [hframes w hw] at hf
    exact absurd hf List.not_mem_nil
  · rw [hout] at ho
    exact absurd ho List.not_mem_nil
  · refine ⟨y, hy, ?_⟩
    rw [htargets, List.mem_singleton] at ho
    rcases ho with ho | ho | rfl
    · exact .inl ho
    · exact .inr ho
    · exact hd

/-- What an operation that ends has come to is loaded. -/
theorem complete (h : s.Charts W ((l, d) :: T)) {r : Loading}
    (hc : r.Charted s (walksOf W l) (d :: targetsOf T l)) (hd : s.Old d ∨ d ∈ r.visited)
    (hlast : r.pending = 1) (hs : s.Copies s')
    (hold : ∀ x, s'.Old x ↔ s.Old x ∨ x ∈ r.visited) : s'.Rounded := by
  intro x hx q hq
  rw [hs.entries] at hq
  rw [hold] at hx
  have hnow : ∃ y, s.imported? x q = some y ∧ (s.Old y ∨ y ∈ r.visited) := by
    rcases hx with hx | hx
    · obtain ⟨y, hy, ho⟩ := h.rounded x hx q hq
      exact ⟨y, hy, .inl ho⟩
    · exact (last hc hd hlast).2.2 x hx q hq
  obtain ⟨y, hy, ho⟩ := hnow
  exact ⟨y, (hs.imported x q).trans hy, (hold y).2 ho⟩

/-- An operation is through with one module. -/
theorem descend (h : s.Charts W ((l, d) :: T)) (hl : s.isLoading l = true)
    (hd : s.descends l d = false) : (s.finishDescent l).Charts W T := by
  obtain ⟨r, hr, hlr⟩ : ∃ r, s.loading? l = some r ∧ r.isLoading = true := by
    simpa [isLoading, Option.any_eq_true] using hl
  have hmet := met_of_descends hr hd
  have hc := h.charted l r hr hlr
  rw [targetsOf_cons_self] at hc
  unfold finishDescent
  simp only [hr]
  split
  · next hlast =>
    set s₁ := (s.modifyLoading l fun r ↦ { r with pending := r.pending - 1 }).modifyLoading l
      fun r ↦ { r with isLoading := false, visited := [] } with hs₁
    obtain ⟨hsame, hold⟩ := foldl_markLoaded r.visited s₁
    have hsettle := modules_settle (r.visited.foldl markLoaded s₁) r.promise (.ok ())
    have hcopies : s.Copies ((r.visited.foldl markLoaded s₁).settle r.promise (.ok ())) :=
      have hmark : s.Copies s₁ := .of_modules rfl
      hmark.trans (.trans (.of_same hsame) (.of_modules hsettle))
    have hold' : ∀ x, ((r.visited.foldl markLoaded s₁).settle r.promise (.ok ())).Old x ↔
        s.Old x ∨ x ∈ r.visited := fun x ↦ (old_congr hsettle x).trans (hold x)
    have hload : ∀ x, ((r.visited.foldl markLoaded s₁).settle r.promise (.ok ())).loading? x =
        if x = l then (s.loading? x).map fun r ↦
          { r with pending := r.pending - 1, isLoading := false, visited := [] }
        else s.loading? x := fun x ↦ by
      rw [loading?_congr ((loadings_settle _ _ _).trans hsame.loadings), hs₁,
        loading?_modifyLoading, loading?_modifyLoading]
      split
      · rw [Option.map_map]
        rfl
      · rfl
    refine h.change (l := l) (.of_copies hcopies fun x hx ↦ (hold' x).2 (.inl hx))
      (h.filed.copy hcopies) (h.complete hc hmet hlast hcopies hold') (fun x hx ↦ ⟨?_, rfl, ?_⟩)
      (fun r' hr' ↦ ?_) (fun x hx ↦ ?_) h.walks fun t ht ↦ h.targets t (List.mem_cons_of_mem _ ht)
    · exact (hload x).trans (if_neg hx)
    · rw [targetsOf_cons_ne (Ne.symm hx)]
    · replace hr' := ((hload l).trans (if_pos rfl)).symm.trans hr'
      obtain ⟨r₀, hr₀, rfl⟩ := Option.map_eq_some_iff.1 hr'
      exact ⟨r₀, hr₀, fun _ ↦ .inl, fun hlr ↦ absurd hlr Bool.false_ne_true⟩
    · refine (congrArg Option.isSome (hload x)).trans ?_
      split
      · exact Option.isSome_map.trans hx
      · exact hx
  · next hlast =>
    refine h.update [] [] [d] [] rfl
      (s.loading?_modifyLoading l _) (h.targets _ List.mem_cons_self)
      (List.forall_mem_nil _) (List.forall_mem_nil _) (List.forall_mem_nil _)
      fun r₀ hr₀ ↦ ⟨fun _ ↦ .inl, fun hlr ↦ ⟨hlr, fun hc ↦ ⟨?_, hc.frames, fun x hx q hq ↦ ?_⟩⟩⟩
    · have := hc.pending
      simp only [List.nil_append, List.singleton_append, List.length_cons] at this ⊢
      omega
    · obtain rfl := Option.some.inj (hr.symm.trans hr₀)
      refine (hc.minds x hx q hq).elim (fun w hw f hf hfx hq ↦ .inl ⟨w, hw, f, hf, hfx, hq⟩)
        (fun ho ↦ .inr (.inl ho)) fun y hy ↦ ?_
      rcases hy with hy | hy
      · exact .inr (.inl hy)
      · rcases List.mem_cons.1 hy with rfl | hy
        · exact hmet.imp_right .inl
        · exact .inr (.inr hy)

/-- An operation comes to a module, and goes through its requests if need be. -/
theorem come (h : s.Charts W ((l, d) :: T)) (hl : s.isLoading l = true) :
    (LoadWalk.from s l d).1.Charts ((LoadWalk.from s l d).2 :: W) T := by
  unfold LoadWalk.from
  cases hd : s.descends l d with
  | true => exact h.visit hd
  | false =>
    refine (h.descend hl hd).begin ?_ rfl
    rw [isSome_loading?, size_loadings_finishDescent, ← isSome_loading?]
    exact h.targets _ List.mem_cons_self

/-! ### What becomes of all operations at once -/

/-- No module is loaded in the step, and no operation goes on. -/
theorem build (h : s.Charts W T) (hs : s.Builds s') (hold : ∀ x, s'.Old x → s.Old x)
    (hfiled : s'.Filed) (hl : s'.loadings = s.loadings) : s'.Charts W T := by
  have hload := loading?_congr hl
  refine ⟨fun l r hr hlr ↦ (h.charted l r (hload l ▸ hr) hlr).builds hs, fun w hw ↦ ?_,
    fun t ht ↦ (hload t.1).symm ▸ h.targets t ht, fun l r hr o ho ↦ ?_, hfiled, fun x hx q hq ↦ ?_⟩
  · simp only [hload, hs.entries]
    exact h.walks w hw
  · rw [hs.entries]
    exact h.outstanding l r (hload l ▸ hr) o ho
  · rw [hs.entries] at hq
    obtain ⟨d, hd, ho⟩ := h.rounded x (hold x hx) q hq
    exact ⟨d, hs.grows x q d hd, hs.old d ho⟩

/-- An operation is over. -/
theorem close (h : s.Charts W T) (hm : s'.modules = s.modules)
    (hother : ∀ x, x ≠ l → s'.loading? x = s.loading? x)
    (hself : ∀ r', s'.loading? l = some r' → r'.isLoading = false ∧
      ∃ r, s.loading? l = some r ∧ r'.outstanding ⊆ r.outstanding)
    (hsome : ∀ x, (s.loading? x).isSome → (s'.loading? x).isSome) : s'.Charts W T := by
  refine h.change (l := l) (.of_modules hm) (h.filed.copy (.of_modules hm))
    (h.rounded.copy (.of_modules hm) (old_congr hm)) (fun x hx ↦ ⟨hother x hx, rfl, rfl⟩)
    (fun r' hr' ↦ ?_) hsome h.walks h.targets
  obtain ⟨hover, r, hr, hout⟩ := hself r' hr'
  exact ⟨r, hr, fun o ho ↦ .inl (hout ho), fun hlr ↦ nomatch hover.symm.trans hlr⟩

/-- An operation that is over comes to nothing. -/
theorem pass (h : s.Charts W ((l, d) :: T)) (hl : s.isLoading l = false) : s.Charts W T := by
  refine h.relist (l := l) [] [] [d] []
    (h.targets _ List.mem_cons_self) nofun nofun nofun fun r hr hlr _ ↦ ?_
  simp [isLoading, hr, hlr] at hl

/-! ### Answers of the host -/

theorem filed_record {request : Request} (h : s.Filed) (hq : request.Distinct)
    (hnone : s.imported? m request = none) (hd : (s.module? d).isSome) :
    (s.modifySource m fun r ↦ { r with loaded := r.loaded ++ [⟨request, d⟩] }).Filed := by
  have hsource : ∀ x r', (s.modifySource m fun r ↦
      { r with loaded := r.loaded ++ [⟨request, d⟩] }).source? x = some r' →
      ∃ r, s.source? x = some r ∧ r'.entries = r.entries ∧
        (r'.loaded = r.loaded ∨ x = m ∧ r'.loaded = r.loaded ++ [⟨request, d⟩]) := fun x r' hr' ↦ by
    rw [source?_modifySource] at hr'
    split at hr'
    · next hx =>
      obtain ⟨r, hr, rfl⟩ := Option.map_eq_some_iff.1 hr'
      exact ⟨r, hr, rfl, .inr ⟨hx, rfl⟩⟩
    · exact ⟨r', hr', rfl, .inl rfl⟩
  have hhoused : ∀ x, (s.module? x).isSome → ((s.modifySource m fun r ↦
      { r with loaded := r.loaded ++ [⟨request, d⟩] }).module? x).isSome := fun x hx ↦ by
    rw [modifySource, module?_modifyModule]
    split
    · exact Option.isSome_map.trans hx
    · exact hx
  refine ⟨fun x r' hr' ↦ ?_, fun x r' hr' ↦ ?_, fun x r' hr' ↦ ?_, fun x r' hr' e hmem ↦ ?_⟩ <;>
    obtain ⟨r, hr, he, hl⟩ := hsource x r' hr'
  · exact he ▸ h.proper x r hr
  · rcases hl with hl | ⟨rfl, hl⟩
    · exact hl ▸ h.distinct x r hr
    · rw [hl]
      refine List.forall_mem_append.2 ⟨h.distinct x r hr, fun e he ↦ ?_⟩
      rwa [List.mem_singleton.1 he]
  · rcases hl with hl | ⟨rfl, hl⟩
    · exact hl ▸ h.apart x r hr
    · rw [hl]
      refine List.pairwise_append.2 ⟨h.apart x r hr, List.pairwise_singleton _ _, fun a ha b hb ↦ ?_⟩
      obtain rfl := List.mem_singleton.1 hb
      simp only [imported?, hr, Option.bind_some, Option.map_eq_none_iff] at hnone
      simpa using List.find?_eq_none.1 hnone a ha
  · refine hhoused _ ?_
    rcases hl with hl | ⟨rfl, hl⟩
    · exact h.housed x r hr e (hl ▸ hmem)
    · rw [hl] at hmem
      rcases List.mem_append.1 hmem with hmem | hmem
      · exact h.housed x r hr e hmem
      · exact List.mem_singleton.1 hmem ▸ hd

/-- A module is given for a request. -/
theorem record {call : LoadCall} (h : s.Charts W T) (hout : s.isOutstanding call = true)
    (hm : (s.module? m).isSome) (hok : (s.recordLoaded call m).1 = .ok m) :
    (s.recordLoaded call m).2.Charts W T ∧
      (s.recordLoaded call m).2.imported? call.referrer call.request = some m := by
  unfold recordLoaded at hok ⊢
  split
  · next known hknown =>
    rw [hknown] at hok
    by_cases heq : known = m
    · simp only [heq, if_true]
      exact ⟨h, heq ▸ hknown⟩
    · simp only [heq, if_false] at hok
      exact nomatch hok
  · next hnone =>
    obtain ⟨r, hr, o, ho, href, hsame⟩ : ∃ r, s.loading? call.loading = some r ∧
        ∃ o ∈ r.outstanding, o.1 = call.referrer ∧ o.2.same call.request = true := by
      simp only [isOutstanding, Option.any_eq_true, List.any_eq_true, Bool.and_eq_true,
        beq_iff_eq] at hout
      exact hout
    have hmem := h.outstanding call.loading r hr o ho
    have hdistinct := (h.filed.entries o.1).distinct _ (Entries.requests_subset_asked _ hmem)
    have hcall := hdistinct.of_same hsame
    refine ⟨h.build ⟨fun x ↦ ?_, grows_appendLoaded s _ _, fun x hx ↦ ?_⟩ (fun x hx ↦ ?_)
      (filed_record h.filed hcall hnone hm) rfl, ?_⟩
    · unfold Store.entries
      rw [source?_modifySource]
      split
      · cases s.source? x <;> rfl
      · rfl
    · rwa [Old, status?_modifySource_of_status]
      exact fun _ ↦ rfl
    · rwa [Old, status?_modifySource_of_status] at hx
      exact fun _ ↦ rfl
    · obtain ⟨t, ht⟩ : ∃ t, s.source? call.referrer = some t := by
        rcases ht : s.source? call.referrer with _ | t
        · rw [href, Store.entries, ht] at hmem
          exact absurd hmem List.not_mem_nil
        · exact ⟨t, rfl⟩
      have hfind : t.loaded.find? (·.request.same call.request) = none := by
        simpa [imported?, ht] using hnone
      simp [imported?, source?_modifySource, ht, List.find?_append, hfind, hcall.same_self]

/-- An operation no longer waits for a request that was given a module, and comes to that. -/
theorem take {call : LoadCall} (h : s.Charts W T) (hout : s.isOutstanding call = true)
    (hd : s.imported? call.referrer call.request = some d) :
    (s.takeOutstanding call).Charts W ((call.loading, d) :: T) := by
  obtain ⟨r, hr, hany⟩ : ∃ r, s.loading? call.loading = some r ∧
      (r.outstanding.any fun o ↦ o.1 == call.referrer && o.2.same call.request) = true := by
    simpa only [isOutstanding, Option.any_eq_true] using hout
  obtain ⟨o, ho, hmatch⟩ := List.any_eq_true.1 hany
  obtain ⟨a, l₁, l₂, -, ha, hlist, herase⟩ :=
    List.exists_of_eraseP (p := fun o ↦ o.1 == call.referrer && o.2.same call.request) ho hmatch
  refine h.update [] [] [] [d] rfl
    (s.loading?_modifyLoading call.loading _) (by rw [hr]; rfl) nofun nofun nofun fun r₀ hr₀ ↦ ?_
  obtain rfl := Option.some.inj (hr.symm.trans hr₀)
  refine ⟨fun o ho ↦ .inl (List.mem_of_mem_eraseP ho), fun hlr ↦ ⟨hlr, fun hc ↦
    ⟨?_, hc.frames, fun x hx q hq ↦ ?_⟩⟩⟩
  · have := hc.pending
    have hlength : (r.outstanding.eraseP fun o ↦
        o.1 == call.referrer && o.2.same call.request).length + 1 = r.outstanding.length := by
      rw [herase, hlist, List.length_append, List.length_append, List.length_cons, Nat.add_assoc]
    simp only [List.nil_append, List.singleton_append, List.length_cons] at this ⊢
    omega
  · refine (hc.minds x hx q hq).elim (fun w hw f hf hfx hq ↦ .inl ⟨w, hw, f, hf, hfx, hq⟩)
      (fun ho ↦ ?_) fun y hy ↦ .inr (hy.imp_right (List.mem_cons_of_mem _))
    rw [hlist] at ho
    by_cases hxa : (x, q) = a
    · obtain rfl := hxa
      simp only [Bool.and_eq_true, beq_iff_eq] at ha
      have hdistinct := (h.filed.entries x).distinct q (Entries.requests_subset_asked _ hq)
      refine .inr (.inr ⟨d, ?_, .inr (.inr List.mem_cons_self)⟩)
      rw [h.filed.imported_eq hdistinct ha.2, ha.1, hd]
    · refine .inr (.inl ?_)
      change (x, q) ∈ r.outstanding.eraseP _
      rw [herase]
      simpa [hxa] using ho

end Store.Charts

end EcmaModules
