import EcmaModules.Proofs.Landing
import Mathlib.Data.List.Nodup
import Mathlib.Data.List.Perm.Subperm

/-!
# What setting modules free does

When a module that others wait for has finished, those are told one after the other, and those that
are set free in turn tell others. The depth to which the gathering goes is bounded by the number of
modules, and that bound is never reached: each step down has put another module on the list.
-/

namespace EcmaModules

namespace Store

theorem modifySource_of_none {s : Store} {m : ModuleId} (h : s.source? m = none)
    (f : SourceText → SourceText) : s.modifySource m f = s := by
  have hmodules : (s.modifySource m f).modules = s.modules := by
    refine Array.ext_getElem? fun i ↦ ?_
    simp only [modifySource, modifyModule, Array.getElem?_modify]
    split
    · next hi =>
      subst hi
      unfold source? module? at h
      rcases hm : s.modules[m.index]? with _ | ⟨_ | _, _, _, _, _, _⟩
      · rfl
      · simp [hm] at h
      · rfl
    · rfl
  unfold modifySource modifyModule at hmodules ⊢
  simp only at hmodules
  rw [hmodules]

theorem modifySource_modifySource (s : Store) (m : ModuleId) (f g : SourceText → SourceText) :
    (s.modifySource m f).modifySource m g = s.modifySource m fun r ↦ g (f r) := by
  have hmodules : ((s.modifySource m f).modifySource m g).modules =
      (s.modifySource m fun r ↦ g (f r)).modules := by
    refine Array.ext_getElem? fun i ↦ ?_
    simp only [modifySource, modifyModule, Array.getElem?_modify]
    split
    · rcases s.modules[i]? with _ | ⟨_ | _, _, _, _, _, _⟩ <;> rfl
    · rfl
  unfold modifySource modifyModule at hmodules ⊢
  simp only at hmodules ⊢
  rw [hmodules]

/-- Tells a parent of a module that has finished, at the given depth. -/
def gatherParent (depth : Nat) (acc : Store × List ModuleId) (parent : ModuleId) :
    Store × List ModuleId :=
  if acc.2.contains parent || acc.1.isBeyondWaiting parent then acc
  else
    match (acc.1.lessen parent).source? parent with
    | some r =>
      if r.pendingAsync = 0 then
        if r.entries.awaits then (acc.1.lessen parent, acc.2 ++ [parent])
        else gatherFrom depth (acc.1.lessen parent) parent (acc.2 ++ [parent])
      else (acc.1.lessen parent, acc.2)
    | none => (acc.1.lessen parent, acc.2)

theorem gatherFrom_succ (depth : Nat) (s : Store) (m : ModuleId) (free : List ModuleId) :
    gatherFrom (depth + 1) s m free =
      (((s.source? m).map (·.asyncParents)).getD []).foldl (gatherParent depth) (s, free) := by
  rfl

theorem index_lt_of_source {s : Store} {m : ModuleId} (h : (s.source? m).isSome) :
    m.index < s.modules.size := by
  unfold source? module? at h
  by_contra hlt
  rw [Array.getElem?_eq_none (by omega)] at h
  exact nomatch h

/-- A list of different modules with source text is no longer than the store. -/
theorem length_le_size {s : Store} {F : List ModuleId} (hF : F.Nodup)
    (h : ∀ x ∈ F, (s.source? x).isSome) : F.length ≤ s.modules.size := by
  have hnodup : (F.map (·.index)).Nodup := by
    refine List.Nodup.map (fun a b hab ↦ ?_) hF
    cases a
    cases b
    exact congrArg ModuleId.mk hab
  have hsub : F.map (·.index) ⊆ List.range s.modules.size := by
    intro i hi
    obtain ⟨x, hx, rfl⟩ := List.mem_map.1 hi
    exact List.mem_range.2 (index_lt_of_source (h x hx))
  simpa using (List.subperm_of_subset hnodup hsub).length_le

/-- What telling a parent does, when the bound is not reached. -/
theorem gatherParent_cases (depth : Nat) (s : Store) (F : List ModuleId) (p : ModuleId) :
    ((p ∈ F ∨ s.isBeyondWaiting p = true ∨ s.source? p = none) ∧
      gatherParent depth (s, F) p = (s, F)) ∨
    ∃ r, p ∉ F ∧ s.isBeyondWaiting p = false ∧ s.source? p = some r ∧
      ((r.pendingAsync - 1 ≠ 0 ∧ gatherParent depth (s, F) p = (s.lessen p, F)) ∨
        (r.pendingAsync - 1 = 0 ∧ gatherParent depth (s, F) p =
          if r.entries.awaits then (s.lessen p, F ++ [p])
          else gatherFrom depth (s.lessen p) p (F ++ [p]))) := by
  unfold gatherParent
  by_cases hskip : (F.contains p || s.isBeyondWaiting p) = true
  · rw [if_pos hskip]
    refine .inl ⟨?_, rfl⟩
    simp only [Bool.or_eq_true, List.contains_eq_mem, decide_eq_true_eq] at hskip
    exact hskip.imp id .inl
  rw [if_neg hskip]
  simp only [Bool.or_eq_true, List.contains_eq_mem, decide_eq_true_eq, not_or,
    Bool.not_eq_true] at hskip
  rcases hp : s.source? p with _ | r
  · refine .inl ⟨.inr (.inr rfl), ?_⟩
    simp only [lessen, modifySource_of_none hp, hp]
  · have hself : (s.lessen p).source? p = some { r with pendingAsync := r.pendingAsync - 1 } := by
      rw [lessen, source?_modifySource, if_pos rfl, hp]
      rfl
    refine .inr ⟨r, hskip.1, hskip.2, rfl, ?_⟩
    simp only [hself]
    by_cases h0 : r.pendingAsync - 1 = 0
    · exact .inr ⟨h0, by rw [if_pos h0]⟩
    · exact .inl ⟨h0, by rw [if_neg h0]⟩

/-- Gathering does nothing to a store but let parents wait for one module less. -/
theorem gatherFrom_of_lessen {R : Store → Store → Prop} (hrefl : ∀ s, R s s)
    (htrans : ∀ s s' s'', R s s' → R s' s'' → R s s'') (hlessen : ∀ s p, R s (s.lessen p))
    (depth : Nat) (s : Store) (m : ModuleId) (F : List ModuleId) :
    R s (s.gatherFrom depth m F).1 := by
  induction depth generalizing s m F with
  | zero => exact hrefl s
  | succ depth ih =>
    have hparent : ∀ (acc : Store × List ModuleId) p, R acc.1 (gatherParent depth acc p).1 := by
      rintro ⟨s, F⟩ p
      rcases gatherParent_cases depth s F p with
        ⟨-, heq⟩ | ⟨r, -, -, -, ⟨-, heq⟩ | ⟨-, heq⟩⟩
      · rw [heq]
        exact hrefl s
      · rw [heq]
        exact hlessen s p
      · rw [heq]
        split
        · exact hlessen s p
        · exact htrans _ _ _ (hlessen s p) (ih _ p _)
    rw [gatherFrom_succ]
    generalize ((s.source? m).map (·.asyncParents)).getD [] = ps
    induction ps generalizing s F with
    | nil => exact hrefl s
    | cons p ps ihp =>
      rw [List.foldl_cons]
      exact htrans _ _ _ (hparent (s, F) p) (ihp _ _)

theorem size_lessen (s : Store) (m : ModuleId) : (s.lessen m).modules.size = s.modules.size := by
  simp [lessen, modifySource, modifyModule]

theorem isSome_source?_lessen (s : Store) (m x : ModuleId) :
    ((s.lessen m).source? x).isSome = (s.source? x).isSome := by
  rw [lessen, source?_modifySource]
  split
  · exact Option.isSome_map
  · rfl

end Store

theorem Store.parents_lessen (s : Store) (m x : ModuleId) :
    (s.lessen m).parents x = s.parents x := by
  unfold parents
  rw [lessen, source?_modifySource]
  split
  · rcases s.source? x with _ | r <;> rfl
  · rfl

/-- Gathering leads from modules that are due, and those set free before, to a store and the modules
that are free then, with others still being due. -/
structure Gathers (mode : Mode) (H : List Event) (G : List ModuleId) (s : Store)
    (F ps : List ModuleId) (acc : Store × List ModuleId) : Prop where
  moves : Moves mode ⟨s, [], F, [], ps ++ G, [], H⟩ ⟨acc.1, [], acc.2, [], G, [], H⟩
  known : ∀ x ∈ acc.2, (acc.1.source? x).isSome
  size : acc.1.modules.size = s.modules.size
  longer : F.length ≤ acc.2.length

section

variable {mode : Mode} {H : List Event} {depth : Nat}

/-- Parents are told one after the other, and those that are set free tell theirs in turn. -/
theorem gathers_parents
    (hdown : ∀ (s : Store) (p : ModuleId) (F G : List ModuleId),
      Valid ⟨s, [], F, [], s.parents p ++ G, [], H⟩ → (∀ x ∈ F, (s.source? x).isSome) →
      s.modules.size + 1 ≤ depth + F.length →
      Gathers mode H G s F (s.parents p) (s.gatherFrom depth p F))
    (ps G : List ModuleId) : ∀ (s : Store) (F : List ModuleId),
      Valid ⟨s, [], F, [], ps ++ G, [], H⟩ → (∀ x ∈ F, (s.source? x).isSome) →
      s.modules.size ≤ depth + F.length →
      Gathers mode H G s F ps (ps.foldl (Store.gatherParent depth) (s, F)) := by
  induction ps with
  | nil => exact fun s F _ hF _ ↦ ⟨.refl, hF, rfl, Nat.le_refl _⟩
  | cons p ps ih =>
    intro s F hv hF hdepth
    rw [List.foldl_cons]
    have hknown : ∀ x ∈ F, ((s.lessen p).source? x).isSome := fun x hx ↦ by
      rw [s.isSome_source?_lessen]
      exact hF x hx
    rcases Store.gatherParent_cases depth s F p with
      ⟨hskip, heq⟩ | ⟨r, hnot, hb, hp, ⟨h0, heq⟩ | ⟨h0, heq⟩⟩
    · have hmove : Move mode ⟨s, [], F, [], p :: (ps ++ G), [], H⟩ _ := .skip hskip
      have h := ih s F (hmove.valid hv) hF hdepth
      rw [heq]
      exact ⟨.head hmove h.moves, h.known, h.size, h.longer⟩
    · have hmove : Move mode ⟨s, [], F, [], p :: (ps ++ G), [], H⟩ _ := .lessen hnot hb hp h0
      have h := ih (s.lessen p) F (hmove.valid hv) hknown (by rwa [s.size_lessen])
      rw [heq]
      exact ⟨.head hmove h.moves, h.known, h.size.trans (s.size_lessen p), h.longer⟩
    · have hmove : Move mode ⟨s, [], F, [], p :: (ps ++ G), [], H⟩ _ := .release hnot hb hp h0
      have hv' := hmove.valid hv
      have hknown' : ∀ x ∈ F ++ [p], ((s.lessen p).source? x).isSome := fun x hx ↦ by
        rcases List.mem_append.1 hx with hx | hx
        · exact hknown x hx
        · rw [List.mem_singleton.1 hx, s.isSome_source?_lessen, hp]
          rfl
      have hlength : (F ++ [p]).length = F.length + 1 := by simp
      rw [heq]
      cases hw : r.entries.awaits with
      | true =>
        rw [hw] at hmove hv'
        have h := ih (s.lessen p) (F ++ [p]) hv' hknown' (by
          rw [s.size_lessen]
          omega)
        refine ⟨.head hmove h.moves, h.known, h.size.trans (s.size_lessen p), ?_⟩
        exact Nat.le_trans (by omega) h.longer
      | false =>
        have hparents : (s.lessen p).parents p = r.asyncParents := by
          rw [s.parents_lessen]
          simp [Store.parents, hp]
        simp only [hw, Bool.false_eq_true, if_false] at hmove hv' ⊢
        rw [← hparents] at hmove hv'
        have hd := hdown (s.lessen p) p (F ++ [p]) (ps ++ G) hv' hknown' (by
          rw [s.size_lessen]
          omega)
        have h := ih _ _ (hd.moves.valid hv') hd.known (by
          rw [hd.size, s.size_lessen]
          have := hd.longer
          omega)
        refine ⟨.head hmove (hd.moves.trans h.moves), h.known,
          h.size.trans (hd.size.trans (s.size_lessen p)), ?_⟩
        have := hd.longer
        exact Nat.le_trans (by omega) h.longer

/-- The bound on the depth is never reached. -/
theorem gathers_from (depth : Nat) : ∀ (s : Store) (m : ModuleId) (F G : List ModuleId),
    Valid ⟨s, [], F, [], s.parents m ++ G, [], H⟩ → (∀ x ∈ F, (s.source? x).isSome) →
    s.modules.size + 1 ≤ depth + F.length →
    Gathers mode H G s F (s.parents m) (s.gatherFrom depth m F) := by
  induction depth with
  | zero =>
    intro s m F G hv hF hdepth
    have : F.length ≤ s.modules.size := Store.length_le_size hv.sound.queue hF
    omega
  | succ depth ih =>
    intro s m F G hv hF hdepth
    rw [Store.gatherFrom_succ]
    exact gathers_parents ih (s.parents m) G s F hv hF (by omega)

/-- A module that has finished sets free others. -/
theorem gather_lands {s : Store} {m : ModuleId}
    (hv : Valid ⟨s, [], [], [], s.parents m, [], H⟩) :
    Moves mode ⟨s, [], [], [], s.parents m, [], H⟩
      ⟨(s.gather m).1, [], (s.gather m).2, [], [], [], H⟩ := by
  have h : Gathers mode H [] s [] (s.parents m) (s.gatherFrom (s.modules.size + 1) m []) :=
    gathers_from (s.modules.size + 1) s m [] [] (by rwa [List.append_nil]) nofun (by simp)
  simpa [Store.gather] using h.moves

end

/-! ## Jobs and modules that were set free -/

section

variable {mode : Mode} {s : Store} {m : ModuleId} {F X : List ModuleId} {H : List Event}

theorem fulfillModule_lands (mode : Mode)
    (hv : Valid ⟨s, [], [], [], [], [⟨.completeModule m, .ok ()⟩], H⟩) :
    Moves mode ⟨s, [], [], [], [], [⟨.completeModule m, .ok ()⟩], H⟩
      ⟨(s.fulfillModule m).1, [], (s.fulfillModule m).2, [], [], [], H⟩ := by
  obtain ⟨p, hb, -⟩ := hv.ledger.job m (.ok ()) (by simp)
  obtain ⟨q, hq, -⟩ := hv.sound.began m _ hb
  obtain ⟨r, hr, rfl⟩ := Store.source?_of_outline hq
  unfold Store.fulfillModule
  by_cases hs : s.status? m = some .evaluated
  · rw [if_pos hs]
    exact .single (.late hs)
  rw [if_neg hs]
  have hs' : r.status ≠ .evaluated := fun h ↦ hs (by simp [Store.status?, hr, h])
  have hmove : Move mode ⟨s, [], [], [], [], [⟨.completeModule m, .ok ()⟩], H⟩ _ := .fulfill hr hs'
  have hparents : (s.finishModule m).parents m = r.asyncParents := by
    have := Store.outline_finishModule_self hr
    obtain ⟨r', hr', heq⟩ := Store.source?_of_outline this
    simp only [Store.parents, hr', Option.map_some, Option.getD_some]
    rw [← SourceText.outline_asyncParents, heq, SourceText.outline_asyncParents]
  rw [← hparents] at hmove
  exact .head hmove (gather_lands (hmove.valid hv))

/-- The scene after the first of the modules that were set free was looked at. -/
def Store.FreeStep.lands (s : Store) (m : ModuleId) (F : List ModuleId) (H : List Event) :
    Store.FreeStep → Scene
  | .over => ⟨s, [], F, [], [], [], H⟩
  | .execute capability =>
    ⟨s, [], F, (Frame.freed m capability F).lone, [], [], .began m capability :: H⟩

theorem continueFree_lands :
    Move mode ⟨s, [], m :: F, [], [], [], H⟩
      ((s.continueFree m).1.lands (s.continueFree m).2 m F H) := by
  unfold Store.continueFree
  rcases hm : s.source? m with _ | r
  · exact .past (.inl hm)
  simp only
  by_cases hs : r.status = .evaluated
  · rw [if_pos hs]
    exact .past (.inr (by simp [Store.status?, hm, hs]))
  rw [if_neg hs]
  cases hw : r.entries.awaits with
  | true => exact .freeAsync hm hs hw
  | false =>
    by_cases hs' : r.status = .asyncSubgraphsSearchingAsync
    · simp only [Bool.false_eq_true, if_false, if_pos hs']
      exact .pastSearched hm hw hs'
    · simp only [Bool.false_eq_true, if_false, if_neg hs']
      exact .free hm hs hw hs'

theorem Store.finishFree_eq_finishModule (s : Store) (m : ModuleId) :
    s.finishFree m none (.ok ()) = s.finishModule m := by
  unfold Store.finishFree Store.finishModule Store.settleAsync Store.setStatus
  rw [Store.modifySource_modifySource, Store.modifySource_modifySource]

theorem finishFree_lands (mode : Mode) (s : Store) (F : List ModuleId) (c : Completion)
    {capability : Option PromiseId} (hb : .began m capability ∈ H)
    (hfails : mode.fails ∨ ∀ e, c ≠ .error e) :
    Moves mode ⟨s, [], F, (Frame.freed m capability F).lone, [], [], H⟩
      ⟨s.finishFree m capability c, [], F, [], [], [], .ended m capability c :: H⟩ := by
  rcases capability with _ | p <;> rcases c with e | ⟨⟩
  · exact .single (.freedError (hfails.resolve_right fun h ↦ h e rfl))
  · rw [s.finishFree_eq_finishModule]
    exact .single .freed
  · have haside : Apart s (s.reject p e) := .settle s p _
    exact .head (.freedAsync hb) (.single (.aside haside.afar (.inr haside.steady.imported)))
  · exact .single (.freedAsync hb)

end

end EcmaModules
