import EcmaModules.Proofs.Aside

/-!
# Linking leaves evaluation alone

A walk that links changes the status of the modules on its stack. As long as these are being linked
that cannot be told from the outline. So the invariant is about stacks: each module is on at most
one, once, and is being linked; and the path of a walk lies on its stack in order, so that what is
taken off the stack is never a module that the walk still has to come back to.
-/

namespace EcmaModules

/-! ## Lists -/

/-- What lies below the first occurrence of the head of a sublist. -/
theorem sublist_of_cons_sublist {α : Type} {a : α} {path above below : List α}
    (h : (a :: path).Sublist (above ++ a :: below)) (ha : a ∉ above) : path.Sublist below := by
  induction above with
  | nil => exact List.cons_sublist_cons.1 h
  | cons b above ih =>
    rw [List.mem_cons, not_or] at ha
    cases h with
    | cons _ h => exact ih h ha.2
    | cons_cons _ h => exact absurd rfl ha.1

namespace Store

theorem status?_modifySource (s : Store) (m : ModuleId) (f : SourceText → SourceText)
    (x : ModuleId) :
    (s.modifySource m f).status? x =
      if x = m then (s.source? x).map fun r ↦ (f r).status else s.status? x := by
  simp only [status?, source?_modifySource]
  split
  · rcases s.source? x <;> rfl
  · rfl

theorem status?_modifySource_of_status {s : Store} {m : ModuleId} {f : SourceText → SourceText}
    (hf : ∀ r, (f r).status = r.status) (x : ModuleId) :
    (s.modifySource m f).status? x = s.status? x := by
  rw [status?_modifySource]
  split <;> simp [status?, hf]

theorem status?_setStatus (s : Store) (m : ModuleId) (status : Status) (x : ModuleId) :
    (s.setStatus m status).status? x =
      if x = m then (s.status? x).map fun _ ↦ status else s.status? x := by
  rw [setStatus, status?_modifySource]
  split
  · simp [status?, Function.comp_def]
  · rfl

end Store

/-! ## Stacks -/

/-- The path and the stack of a walk that links. -/
structure LinkTour where
  path : List ModuleId
  stack : List ModuleId

/-- The walk at its next step. -/
def LinkWalk.tour (w : LinkWalk) : LinkTour := ⟨w.frames.map (·.module), w.stack⟩

/-- The walk at a module whose environment is being set up. -/
def LinkWalk.tourAt (w : LinkWalk) (m : ModuleId) : LinkTour :=
  ⟨m :: w.frames.map (·.module), w.stack⟩

/-- The walk that a task is. -/
def Task.linkTours : Task → List LinkTour
  | .linking w => [w.tour]
  | _ => []

/-- The walk that waits in a frame. -/
def Frame.linkTours : Frame → List LinkTour
  | .setUp m w => [w.tourAt m]
  | _ => []

/-- The walks that the machine is at or that wait, the latest first. -/
def Machine.linkTours (M : Machine) : List LinkTour :=
  (match M.control with
    | .run t => t.linkTours
    | .give _ => []) ++ M.frames.flatMap Frame.linkTours

/-- The modules on the stacks of walks that link are being linked still, if they were. -/
def Store.KeepsLinking (s s' : Store) (L : List LinkTour) : Prop :=
  ∀ t ∈ L, ∀ x ∈ t.stack, s.status? x = some .linking → s'.status? x = some .linking

/-- What holds of the walks that link. -/
structure Linkage (s : Store) (L : List LinkTour) : Prop where
  nodup : (L.flatMap (·.stack)).Nodup
  path : ∀ t ∈ L, t.path.Sublist t.stack
  linking : ∀ t ∈ L, ∀ x ∈ t.stack, s.status? x = some .linking

namespace Linkage

variable {s s' : Store} {L : List LinkTour} {t t' : LinkTour} {w w' : LinkWalk} {m : ModuleId}

theorem tail (h : Linkage s (t :: L)) : Linkage s L :=
  ⟨(List.nodup_append.1 h.nodup).2.1, fun t ht ↦ h.path t (List.mem_cons_of_mem _ ht),
    fun t ht ↦ h.linking t (List.mem_cons_of_mem _ ht)⟩

/-- Modules that are being linked stay so. -/
theorem keep (h : Linkage s L) (hs : s.KeepsLinking s' L) : Linkage s' L :=
  ⟨h.nodup, h.path, fun t ht x hx ↦ hs t ht x hx (h.linking t ht x hx)⟩

/-- A walk begins with nothing on its stack. -/
theorem cons_empty (h : Linkage s L) : Linkage s (({} : LinkWalk).tour :: L) := by
  refine ⟨h.nodup, fun t ht ↦ ?_, fun t ht x hx ↦ ?_⟩
  · rcases List.mem_cons.1 ht with rfl | ht
    · exact .slnil
    · exact h.path t ht
  · rcases List.mem_cons.1 ht with rfl | ht
    · exact absurd hx List.not_mem_nil
    · exact h.linking t ht x hx

/-- Another point of the same walk. -/
theorem replace (h : Linkage s (t :: L)) (hp : t'.path.Sublist t.path)
    (hs : t'.stack = t.stack) : Linkage s (t' :: L) := by
  refine ⟨by simpa [hs] using h.nodup, fun u hu ↦ ?_, fun u hu x hx ↦ ?_⟩
  · rcases List.mem_cons.1 hu with rfl | hu
    · exact hs ▸ hp.trans (h.path t List.mem_cons_self)
    · exact h.path u (List.mem_cons_of_mem _ hu)
  · rcases List.mem_cons.1 hu with rfl | hu
    · exact h.linking t List.mem_cons_self x (hs ▸ hx)
    · exact h.linking u (List.mem_cons_of_mem _ hu) x hx

end Linkage

/-! ## What walks that link do -/

namespace Store

/-- A module looks the same in any status that comes before evaluation. -/
theorem setStatus_inside {s : Store} {m : ModuleId} {status : Status}
    (hm : ∀ r, s.source? m = some r → r.status.outline = .linked)
    (hs : status.outline = .linked) : Inside s (s.setStatus m status) := by
  refine .modifySource s m fun r hr ↦ ⟨?_, rfl, rfl, rfl⟩
  have hr' := hm r hr
  cases hstatus : r.status <;> cases status <;>
    simp_all [SourceText.outline, Status.outline, Status.isWalked]

/-- The point at which a walk came to a module does not show before evaluation. -/
theorem modifyDfs_inside {s : Store} {m : ModuleId} {f : SourceText → SourceText}
    (hm : ∀ r, s.source? m = some r → r.status.outline = .linked)
    (hf : ∀ r, ∃ i j, f r = { r with dfsIndex := i, dfsAncestorIndex := j }) :
    Inside s (s.modifySource m f) := by
  refine .modifySource s m fun r hr ↦ ?_
  obtain ⟨i, j, h⟩ := hf r
  have hw : r.status.isWalked = false := by
    have hr' := hm r hr
    cases hstatus : r.status <;> simp_all [Status.outline, Status.isWalked]
  rw [h]
  exact ⟨by simp [SourceText.outline, hw], rfl, rfl, rfl⟩

theorem outline_of_linking {s : Store} {m : ModuleId} (h : s.status? m = some .linking)
    (r : SourceText) (hr : s.source? m = some r) : r.status.outline = .linked := by
  have : r.status = .linking := by simpa [status?, hr] using h
  rw [this]
  rfl

theorem outline_of_unlinked {s : Store} {m : ModuleId} (h : s.status? m = some .unlinked)
    (r : SourceText) (hr : s.source? m = some r) : r.status.outline = .linked := by
  have : r.status = .unlinked := by simpa [status?, hr] using h
  rw [this]
  rfl

/-- Setting the status of modules that are being linked. -/
theorem foldl_setStatus_inside {status : Status} (hs : status.outline = .linked)
    (ms : List ModuleId) (s : Store)
    (hms : ∀ m ∈ ms, ∀ r, s.source? m = some r → r.status.outline = .linked) :
    Inside s (ms.foldl (fun s m ↦ s.setStatus m status) s) := by
  induction ms generalizing s with
  | nil => exact (Aside.refl s).inside
  | cons m ms ih =>
    refine (setStatus_inside (hms m List.mem_cons_self) hs).trans (ih _ fun x hx r hr ↦ ?_)
    rw [setStatus, source?_modifySource] at hr
    split at hr
    · obtain ⟨t, _, rfl⟩ := Option.map_eq_some_iff.1 hr
      exact hs
    · exact hms x (List.mem_cons_of_mem _ hx) r hr

theorem status?_foldl_setStatus {status : Status} {x : ModuleId} {ms : List ModuleId}
    (hx : x ∉ ms) (s : Store) :
    (ms.foldl (fun s m ↦ s.setStatus m status) s).status? x = s.status? x := by
  induction ms generalizing s with
  | nil => rfl
  | cons m ms ih =>
    rw [List.mem_cons, not_or] at hx
    rw [List.foldl_cons, ih hx.2, status?_setStatus, if_neg hx.1]

/-! ### Environments -/

theorem bindImport_apart (s : Store) (target : ModuleId) (i : ImportEntry) :
    Apart s (s.bindImport target i).2 := by
  unfold bindImport
  split
  · exact s.namespaceOf_apart _ _
  · split
    · exact s.namespaceOf_apart _ _
    · exact .refl s
    · exact .throw s _ _

theorem bindImports_apart (s : Store) (m : ModuleId) (is : List ImportEntry)
    (env : List (String × ImportBinding)) : Apart s (s.bindImports m is env).2 := by
  induction is generalizing s env with
  | nil => exact .refl s
  | cons i rest ih =>
    unfold bindImports
    split
    · exact ih s env
    · next target _ =>
      have h := s.bindImport_apart target i
      split <;> next heq => rw [heq] at h; first | exact h.trans (ih _ _) | exact h

/-- A name that is imported is bound as its latest import is, of those from modules that were loaded.
Another one is bound as it was before. -/
theorem lookup_bindImports {s s' : Store} {m : ModuleId} {is : List ImportEntry}
    {env env' : List (String × ImportBinding)} (h : s.bindImports m is env = (.ok env', s'))
    (name : String) :
    match is.reverse.find? fun i ↦ i.localName == name && (s.imported? m i.request).isSome with
    | some i => ∃ target b, s.imported? m i.request = some target ∧ env'.lookup name = some b ∧
        s'.Grants target i b
    | none => env'.lookup name = env.lookup name := by
  induction is generalizing s env with
  | nil =>
    obtain rfl : env = env' := Except.ok.inj (congrArg Prod.fst h)
    rfl
  | cons i rest ih =>
    rw [bindImports] at h
    rw [List.reverse_cons, List.find?_append]
    split at h
    · next hnone => simpa [List.find?_cons, hnone] using ih h
    · next target htarget =>
      have hsteady := (s.bindImport_apart target i).steady
      split at h
      · next b s₁ heq =>
        rw [heq] at hsteady
        have hrest := ih h
        have hafter := (h ▸ s₁.bindImports_apart m rest ((i.localName, b) :: env)).steady.furnishes
        simp only [hsteady.imported] at hrest
        generalize rest.reverse.find? _ = found at hrest ⊢
        cases found with
        | some i' => exact hrest
        | none =>
          by_cases hname : i.localName = name
          · subst hname
            simpa [htarget] using ⟨b, by simpa using hrest, s, s₁, heq, hsteady.furnishes.trans hafter, hafter⟩
          · have hne : (name == i.localName) = false := by simpa using Ne.symm hname
            simpa [hname, List.lookup_cons, hne] using hrest
      · simp at h

/-- The environment that is set up for a module suits it. -/
theorem suits_bindImports {s s' : Store} {m : ModuleId} {es : Entries}
    {env : List (String × ImportBinding)} (h : s.bindImports m es.imports [] = (.ok env, s')) :
    s'.Suits m es env := by
  have himported := (h ▸ s.bindImports_apart m es.imports []).steady.imported m
  have hlookup := fun name ↦ lookup_bindImports h name
  simp only [← himported] at hlookup
  refine ⟨fun i hi hloaded ↦ ?_, fun name b hb ↦ ?_⟩
  · have hlookup := hlookup i.localName
    split at hlookup
    · obtain ⟨target, b, -, hb, -⟩ := hlookup
      exact Option.isSome_of_mem hb
    · next hnone =>
      have := List.find?_eq_none.1 hnone i (List.mem_reverse.2 hi)
      simp [hloaded] at this
  · have hlookup := hlookup name
    split at hlookup
    · next i hi =>
      obtain ⟨target, b', htarget, hb', hbinds⟩ := hlookup
      obtain rfl := Option.some.inj (hb.symm.trans hb')
      exact ⟨i, target, hi, htarget, hbinds⟩
    · rw [hb] at hlookup
      contradiction

/-- No module but the one that it is set up for gets another environment. -/
theorem environment?_initializeEnvironment (s : Store) {m x : ModuleId} (hx : x ≠ m) :
    (s.initializeEnvironment m).2.environment? x = s.environment? x := by
  unfold initializeEnvironment
  split
  · rfl
  · next r hr =>
    split
    · exact (Aside.throw s _ _).steady.scenery x
    · have h := s.bindImports_apart m r.entries.imports []
      split
      · next heq =>
        rw [heq] at h
        exact h.steady.scenery x
      · next env s' heq =>
        rw [heq] at h
        dsimp only
        rw [environment?, source?_modifyModule_of_content, source?_modifySource, if_neg hx]
        · exact h.steady.scenery x
        · exact fun _ ↦ rfl

theorem initializeEnvironment_furnishing (s : Store) (m : ModuleId) :
    Furnishing s (s.initializeEnvironment m).2 := by
  unfold initializeEnvironment
  split
  · exact (Aside.refl s).furnishing
  · next r hr =>
    split
    · exact (Aside.throw s _ _).furnishing
    · have h := s.bindImports_apart m r.entries.imports []
      split
      · next heq =>
        rw [heq] at h
        exact h.furnishing
      · next env s' heq =>
        rw [heq] at h
        dsimp only
        refine h.furnishing.trans (.trans
          (.modifySource_furnishing _ m ?_ fun r' hr' ↦ .inr ⟨env, rfl, ?_⟩)
          (Aside.modifyModule _ m ?_ ?_).furnishing)
        · exact fun _ ↦ ⟨rfl, rfl, rfl, rfl, rfl⟩
        · have hsame := h.steady.toSame
          have hscript := hsame.script m
          simp only [script?, hr, hr', Option.map_some, Option.some.injEq] at hscript
          have hentries : r'.entries = r.entries := congrArg Prod.fst hscript
          rw [hentries]
          exact suits_bindImports heq
        · exact fun _ ↦ rfl
        · exact fun _ ↦ rfl

end Store

namespace LinkWalk

variable {s : Store} {w : LinkWalk} {L : List LinkTour} {m root : ModuleId}

theorem popComponent_append (s : Store) {root : ModuleId} {above : List ModuleId}
    (below : List ModuleId) (h : root ∉ above) :
    popComponent s root (above ++ root :: below) =
      ((above ++ [root]).foldl (fun s m ↦ s.setStatus m .linked) s, below) := by
  induction above generalizing s with
  | nil => simp [popComponent]
  | cons m above ih =>
    rw [List.mem_cons, not_or] at h
    simp [popComponent, Ne.symm h.1, ih _ h.2]

theorem leave_inside (hm : s.status? m = some .linking) (required : ModuleId) :
    Inside s (leave s m required) := by
  unfold leave
  split
  · split
    · exact Store.modifyDfs_inside (Store.outline_of_linking hm) fun r ↦ ⟨_, _, rfl⟩
    · exact (Aside.refl s).inside
  · exact (Aside.refl s).inside

theorem status?_leave (s : Store) (m required x : ModuleId) :
    (leave s m required).status? x = s.status? x := by
  unfold leave
  split
  · split
    · refine Store.status?_modifySource_of_status ?_ x
      exact fun _ ↦ rfl
    · rfl
  · rfl

/-- Entering a module that is unlinked is nothing to evaluation. -/
theorem enter_inside (hm : s.status? m = some .unlinked) (index : Nat) :
    Inside s ((s.setStatus m .linking).setDfsIndex m index) := by
  refine (Store.setStatus_inside (Store.outline_of_unlinked hm) rfl).trans
    (Store.modifyDfs_inside ?_ fun r ↦ ⟨_, _, rfl⟩)
  refine Store.outline_of_linking ?_
  rw [Store.status?_setStatus, if_pos rfl, hm]
  rfl

/-- Entering a module puts it on the path and on the stack. -/
theorem enter_linkage (h : Linkage s (w.tour :: L)) (hm : s.status? m = some .unlinked) :
    ∃ s' w', enter s w m = (s', some w') ∧ Inside s s' ∧ Linkage s' (w'.tour :: L) := by
  refine ⟨_, _, by rw [enter, if_pos hm], enter_inside hm _, ?_⟩
  · have hne : ∀ t ∈ w.tour :: L, ∀ x ∈ t.stack, x ≠ m := by
      rintro t ht x hx rfl
      simp [h.linking t ht x hx] at hm
    have hstatus : ∀ x, ((s.setStatus m .linking).setDfsIndex m w.index).status? x =
        if x = m then (s.status? x).map fun _ ↦ Status.linking else s.status? x := fun x ↦ by
      rw [← Store.status?_setStatus]
      refine Store.status?_modifySource_of_status ?_ x
      exact fun _ ↦ rfl
    refine ⟨?_, fun t ht ↦ ?_, fun t ht x hx ↦ ?_⟩
    · refine List.nodup_cons.2 ⟨fun hmem ↦ ?_, h.nodup⟩
      obtain ⟨t, ht, hx⟩ := List.mem_flatMap.1 (show m ∈ (w.tour :: L).flatMap (·.stack) from hmem)
      exact hne t ht m hx rfl
    · rcases List.mem_cons.1 ht with rfl | ht
      · exact (h.path _ List.mem_cons_self).cons_cons m
      · exact h.path t (List.mem_cons_of_mem _ ht)
    · rw [hstatus]
      rcases List.mem_cons.1 ht with rfl | ht
      · rcases List.mem_cons.1 hx with rfl | hx
        · rw [if_pos rfl, hm]
          rfl
        · rw [if_neg (hne _ List.mem_cons_self x hx)]
          exact h.linking _ List.mem_cons_self x hx
      · rw [if_neg (hne t (List.mem_cons_of_mem _ ht) x hx)]
        exact h.linking t (List.mem_cons_of_mem _ ht) x hx

/-- The walk is through with a module: either this module stays on the stack, or its component is
taken off. -/
theorem conclude_linkage (h : Linkage s (w.tourAt m :: L)) :
    Inside s (conclude s w m).1 ∧
      Linkage (conclude s w m).1 ((conclude s w m).2.tour :: L) := by
  have hsub : (m :: w.frames.map (·.module)).Sublist w.stack := h.path _ List.mem_cons_self
  -- the store after the component has been taken off, if it was
  have key : ∀ (s' : Store) (stack : List ModuleId),
      (if s.isComponentRoot m then popComponent s m w.stack else (s, w.stack)) = (s', stack) →
      Inside s s' ∧ Linkage s' (⟨w.frames.map (·.module), stack⟩ :: L) := by
    intro s' stack heq
    split at heq
    · obtain ⟨above, below, hstack, hnot⟩ :=
        List.eq_append_cons_of_mem (hsub.subset List.mem_cons_self)
      rw [hstack, popComponent_append s below hnot] at heq
      obtain ⟨rfl, rfl⟩ := Prod.mk.inj heq
      have hmem : ∀ x ∈ above ++ [m], x ∈ w.stack := by
        intro x hx
        rw [hstack]
        simp only [List.mem_append, List.mem_cons, List.not_mem_nil, or_false] at hx ⊢
        exact hx.imp id .inl
      have hnodup : ((above ++ [m]) ++ (below ++ L.flatMap (·.stack))).Nodup := by
        have := h.nodup
        simp only [List.flatMap_cons, tourAt, hstack] at this
        simpa using this
      have hnot' : ∀ x ∈ below ++ L.flatMap (·.stack), x ∉ above ++ [m] := fun x hx hx' ↦
        (List.nodup_append.1 hnodup).2.2 x hx' x hx rfl
      refine ⟨Store.foldl_setStatus_inside rfl _ _ fun x hx r hr ↦
        Store.outline_of_linking (h.linking _ List.mem_cons_self x (hmem x hx)) r hr,
        (List.nodup_append.1 hnodup).2.1, fun t ht ↦ ?_, fun t ht x hx ↦ ?_⟩
      · rcases List.mem_cons.1 ht with rfl | ht
        · exact sublist_of_cons_sublist (hstack ▸ hsub) hnot
        · exact h.path t (List.mem_cons_of_mem _ ht)
      · rcases List.mem_cons.1 ht with rfl | ht
        · rw [Store.status?_foldl_setStatus (hnot' x (List.mem_append_left _ hx))]
          refine h.linking _ List.mem_cons_self x ?_
          simp only [tourAt, hstack]
          exact List.mem_append_right _ (List.mem_cons_of_mem _ hx)
        · rw [Store.status?_foldl_setStatus
            (hnot' x (List.mem_append_right _ (List.mem_flatMap.2 ⟨t, ht, hx⟩)))]
          exact h.linking t (List.mem_cons_of_mem _ ht) x hx
    · obtain ⟨rfl, rfl⟩ := Prod.mk.inj heq
      exact ⟨(Aside.refl s).inside, h.replace (List.sublist_cons_self _ _) rfl⟩
  obtain ⟨ha, hl⟩ := key _ _ rfl
  unfold conclude
  split
  next s' stack heq =>
  obtain ⟨ha, hl⟩ := key s' stack heq
  dsimp only
  rcases hf : w.frames with _ | ⟨parent, rest⟩
  · refine ⟨ha, ?_⟩
    simpa [tour, hf] using hl
  · have hparent : s'.status? parent.module = some .linking :=
      hl.linking _ List.mem_cons_self _
        ((hl.path _ List.mem_cons_self).subset (by simp [hf]))
    refine ⟨ha.trans (leave_inside hparent m), ?_⟩
    refine Linkage.keep (by simpa [tour, hf] using hl) fun _ _ x _ hx ↦ ?_
    rw [status?_leave, hx]

end LinkWalk

end EcmaModules
