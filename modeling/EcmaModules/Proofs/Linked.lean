import EcmaModules.Proofs.Ascent
import EcmaModules.Proofs.Closure
import EcmaModules.Proofs.Stacks

/-!
# Linked graphs are closed

A module that is linked requests only modules that are linked. So an evaluation that starts at a linked
module never comes to a module that is not, and what is linked stays linked.

The body of a module may call for further modules to be linked while its environment is set up. The
walk of that call knows nothing of the modules that are being linked further up: they are not on its
stack. So it is asked here that it does not come to any: no module that the body has linked leads to one
that is being linked, unless it is one itself, which is refused.

## Evaluation in between

Bodies may have modules evaluated, too, also while an environment is set up. But evaluation stays among
the modules that are linked (`EcmaModules.Proofs.Confinement`), since these are closed. Of the modules
that are being linked it changes neither the status nor the points.
-/

namespace EcmaModules

variable {s s' : Store} {L : List LinkWalk} {w w' : LinkWalk} {m d x y : ModuleId}

/-! ## Walks that link, one above the other -/

/-- What holds of the walks that link, the latest first. -/
structure Linking (s : Store) (L : List LinkWalk) : Prop where
  tidy : ∀ w ∈ L, w.Tidy s
  /-- A walk does not come to modules that are being linked further up. -/
  apart : L.Pairwise fun w w' ↦
    ∀ x ∈ w.stack, ∀ y, Relation.ReflTransGen s.Requires x y → y ∉ w'.stack
  whole : ∀ x, s.status? x = some .linking → ∃ w ∈ L, x ∈ w.stack
  closed : s.LinkClosed

namespace Store

/-- A change that passes over the modules that are being linked, and links none. -/
structure Skirts (s s' : Store) : Prop where
  linked : ∀ x, s'.Linked x ↔ s.Linked x
  linking : ∀ x, s'.status? x = some .linking ↔ s.status? x = some .linking
  points : ∀ x, s.status? x = some .linking → s'.points? x = s.points? x
  entries : ∀ x, s'.entries x = s.entries x
  imported : ∀ x, s.Old x → ∀ q ∈ (s.entries x).requests, s'.imported? x q = s.imported? x q

theorem Linked.old (h : s.Linked x) : s.Old x := fun hnew ↦
  absurd (linked_iff.1 h _ hnew) (by decide)

/-- If the same modules are linked, these are closed as before. -/
theorem LinkClosed.of_linked (h : s.LinkClosed) (hs : Same s s')
    (hlinked : ∀ x, s'.Linked x ↔ s.Linked x) : s'.LinkClosed := fun x d hx hd ↦ by
  rw [hlinked] at hx ⊢
  exact h x d hx ((hs.requires x d).1 hd)

theorem status?_unlink {S : List ModuleId} (hS : ∀ x ∈ S, s.status? x = some .linking) (x : ModuleId) :
    (s.unlink S).status? x = if x ∈ S then some .unlinked else s.status? x := by
  split
  · next hx => exact status?_foldl_setStatus_of_mem hx s (by rw [hS x hx]; rfl)
  · next hx => exact status?_foldl_setStatus hx s

theorem linked_unlink {S : List ModuleId} (hS : ∀ x ∈ S, s.status? x = some .linking) :
    (s.unlink S).Linked x ↔ s.Linked x := by
  rw [linked_iff, status?_unlink hS]
  split
  · next hx =>
    refine iff_of_false (fun hl ↦ absurd (hl _ rfl) (by decide)) ?_
    exact not_linked_of_linking (hS x hx)
  · rw [linked_iff]

theorem old_of_linking (h : s.status? x = some .linking) : s.Old x := fun hnew ↦
  nomatch h.symm.trans hnew

theorem Skirts.refl (s : Store) : s.Skirts s :=
  ⟨fun _ ↦ Iff.rfl, fun _ ↦ Iff.rfl, fun _ _ ↦ rfl, fun _ ↦ rfl, fun _ _ _ _ ↦ rfl⟩

theorem Skirts.requires (h : s.Skirts s') (hx : s.Old x) : s'.Requires x d ↔ s.Requires x d :=
  requires_congr (h.entries x) (h.imported x hx) d

theorem Rounded.requires (h : s.Rounded) (hx : s.Old x) (hd : s.Requires x d) : s.Old d := by
  obtain ⟨q, hq, hd⟩ := hd
  obtain ⟨d', hd', hold⟩ := h x hx q hq
  rwa [Option.some.inj (hd.symm.trans hd')]

/-- What a module that has been loaded leads to, it led to before. -/
theorem Skirts.leads (h : s.Skirts s') (hr : s.Rounded) (hx : s.Old x)
    (hy : Relation.ReflTransGen s'.Requires x y) :
    Relation.ReflTransGen s.Requires x y ∧ s.Old y := by
  induction hy with
  | refl => exact ⟨.refl, hx⟩
  | tail _ hyz ih =>
    have hyz := (h.requires ih.2).1 hyz
    exact ⟨ih.1.tail hyz, hr.requires ih.2 hyz⟩

/-- Evaluation among the modules that are linked. -/
theorem Skirts.of_among {K : Scope} (hK : ∀ x, K.has x ↔ s.Linked x) (h : s.Among K s')
    (ha : s.Ascends s') : s.Skirts s' := by
  have hlinked : ∀ x, s'.Linked x ↔ s.Linked x := fun x ↦ by
    refine ⟨fun hx ↦ ?_, fun hx r' hr' ↦ ?_⟩
    · by_contra hnot
      exact hnot (hx.congr (h.status fun hk ↦ hnot ((hK x).1 hk)).symm)
    · obtain ⟨r, hr, hrel⟩ := Each.before ha hr'
      exact (hx r hr).trans hrel.rises
  have hoff : ∀ x, s.status? x = some .linking → ¬K.has x := fun x hx hk ↦
    not_linked_of_linking hx ((hK x).1 hk)
  refine ⟨hlinked, fun x ↦ ⟨fun hx ↦ ?_, fun hx ↦ ?_⟩, fun x hx ↦ h.points (hoff x hx),
    h.same.entries, fun x _ q _ ↦ h.same.imported x q⟩
  · have hnot : ¬s.Linked x := fun hl ↦ not_linked_of_linking hx ((hlinked x).2 hl)
    rwa [h.status fun hk ↦ hnot ((hK x).1 hk)] at hx
  · rw [h.status (hoff x hx), hx]

/-- Loading. -/
theorem Skirts.of_loads (h : s.Loads s') (hb : s.Builds s') (hr : s.Rounded) : s.Skirts s' := by
  have hstatus : ∀ x, s'.status? x = s.status? x ∨
      s.status? x = some .new ∧ s'.status? x = some .unlinked := fun x ↦ by
    have hx := h x
    unfold status?
    revert hx
    cases s.source? x <;> cases s'.source? x <;> rintro ⟨⟩
    · exact .inl rfl
    · next hrel =>
      refine hrel.status.imp (congrArg some) fun ⟨hs, hs'⟩ ↦ ?_
      exact ⟨congrArg some hs, congrArg some hs'⟩
  have hpoints : ∀ x, s'.points? x = s.points? x := fun x ↦ by
    have hx := h x
    unfold points?
    revert hx
    cases s.source? x <;> cases s'.source? x <;> rintro ⟨⟩
    · rfl
    · next hrel => exact congrArg some hrel.points
  refine ⟨fun x ↦ ?_, fun x ↦ ?_, fun x _ ↦ hpoints x, hb.entries, fun x hx q hq ↦ ?_⟩
  · rw [linked_iff, linked_iff]
    rcases hstatus x with heq | ⟨heq, heq'⟩
    · rw [heq]
    · rw [heq, heq']
      simp +decide
  · rcases hstatus x with heq | ⟨heq, heq'⟩
    · rw [heq]
    · rw [heq, heq']
      simp
  · obtain ⟨d, hd, -⟩ := hr x hx q hq
    rw [hd, hb.grows x q d hd]

end Store

namespace Linking

theorem nil (hclosed : s.LinkClosed) (hnone : ∀ x, s.status? x ≠ some .linking) : Linking s [] :=
  ⟨nofun, .nil, fun x hx ↦ absurd hx (hnone x), hclosed⟩

/-- A walk that has come to no module yet. -/
theorem cons_empty (h : Linking s L) : Linking s ({} :: L) :=
  ⟨List.forall_mem_cons.2 ⟨.empty s, h.tidy⟩, List.pairwise_cons.2 ⟨by simp, h.apart⟩,
    fun x hx ↦ (h.whole x hx).imp fun _ hu ↦ hu.imp_left (List.mem_cons_of_mem _), h.closed⟩

theorem not_linking (h : Linking s []) (x : ModuleId) : s.status? x ≠ some .linking := fun hx ↦ by
  obtain ⟨w, hw, -⟩ := h.whole x hx
  exact absurd hw List.not_mem_nil

/-- What holds of the walks is not touched by what passes over them. -/
theorem skirt (h : Linking s L) (hl : Linkage s (L.map LinkWalk.tour)) (hr : s.Rounded)
    (hs : s.Skirts s') : Linking s' L := by
  have hlinking : ∀ w ∈ L, ∀ x ∈ w.stack, s.status? x = some .linking := fun w hw ↦
    hl.linking w.tour (List.mem_map_of_mem hw)
  refine ⟨fun w hw ↦ (h.tidy w hw).leave ⟨fun d ↦ (hs.linked d).2, fun d hd ↦ .inr hd, fun d hd ↦ ?_,
    fun x hx ↦ ?_, fun x _ ↦ hs.entries x, fun x hx ↦ hs.imported x ?_⟩, ?_, fun x hx ↦ ?_,
    fun x d hx hd ↦ ?_⟩
  · rw [Store.index, hs.points d (hlinking w hw d hd), Store.index]
  · rw [Store.earliest, hs.points x (hlinking w hw x hx), Store.earliest]
  · exact Store.old_of_linking (hlinking w hw x hx)
  · refine h.apart.imp_of_mem fun {w w'} hw _ hapart x hx y hy ↦ hapart x hx y ?_
    exact (hs.leads hr (Store.old_of_linking (hlinking w hw x hx)) hy).1
  · exact h.whole x ((hs.linking x).1 hx)
  · rw [hs.linked] at hx ⊢
    exact h.closed x d hx ((hs.requires hx.old).1 hd)

/-- The walk on top goes on as another one, or is over. -/
theorem next (h : Linking s (w :: L)) (hl : Linkage s ((w :: L).map LinkWalk.tour)) {W : Option LinkWalk}
    (hs : Same s s') (hlinked : ∀ x, s.Linked x → s'.Linked x)
    (hpoints : ∀ x, x ∉ w.stack → s.status? x = some .linking → s'.points? x = s.points? x)
    (hclosed : s'.LinkClosed)
    (hwhole : ∀ x, x ∉ L.flatMap (·.stack) → s'.status? x = some .linking → ∃ w' ∈ W, x ∈ w'.stack)
    (htidy : ∀ w' ∈ W, w'.Tidy s')
    (hfar : ∀ w' ∈ W, ∀ u ∈ L, ∀ x ∈ w'.stack, ∀ y, Relation.ReflTransGen s.Requires x y → y ∉ u.stack) :
    Linking s' (W.toList ++ L) := by
  have hnodup : (w.stack ++ L.flatMap (·.stack)).Nodup := by
    simpa [List.flatMap_map, LinkWalk.tour] using hl.nodup
  have hbelow : ∀ u ∈ L, ∀ x ∈ u.stack, s'.points? x = s.points? x := fun u hu x hx ↦
    hpoints x (fun hw ↦ (List.nodup_append.1 hnodup).2.2 x hw x (List.mem_flatMap.2 ⟨u, hu, hx⟩) rfl)
      (hl.linking u.tour (List.mem_cons_of_mem _ (List.mem_map_of_mem hu)) x hx)
  have hleads : ∀ {x y}, Relation.ReflTransGen s'.Requires x y → Relation.ReflTransGen s.Requires x y :=
    fun {x y} ↦ Relation.ReflTransGen.mono (fun a b ↦ (hs.requires a b).1) x y
  have hmem : ∀ {u}, u ∈ W.toList ++ L ↔ u ∈ W ∨ u ∈ L := by
    simp
  refine ⟨fun u hu ↦ ?_, List.pairwise_append.2 ⟨?_, ?_, fun w' hw' u hu x hx y hy ↦ ?_⟩,
    fun x hx ↦ ?_, hclosed⟩
  · rcases hmem.1 hu with hu | hu
    · exact htidy u hu
    · refine (h.tidy u (List.mem_cons_of_mem _ hu)).leave ⟨hlinked, fun x hx ↦ .inr hx, fun x hx ↦ ?_,
        fun x hx ↦ ?_, fun x _ ↦ hs.entries x, fun x _ q _ ↦ hs.imported x q⟩
      · rw [Store.index, hbelow u hu x hx, Store.index]
      · rw [Store.earliest, hbelow u hu x hx, Store.earliest]
  · cases W
    · exact .nil
    · exact List.pairwise_singleton _ _
  · exact (List.pairwise_cons.1 h.apart).2.imp fun hapart x hx y hy ↦ hapart x hx y (hleads hy)
  · exact hfar w' (Option.mem_toList.1 hw') u hu x hx y (hleads hy)
  · by_cases hbelow : x ∈ L.flatMap (·.stack)
    · obtain ⟨u, hu, hx⟩ := List.mem_flatMap.1 hbelow
      exact ⟨u, hmem.2 (.inr hu), hx⟩
    · obtain ⟨w', hw', hx⟩ := hwhole x hbelow hx
      exact ⟨w', hmem.2 (.inl hw'), hx⟩

/-- What a module on the stack leads to is not on the stack of a walk further down. -/
theorem far (h : Linking s (w :: L)) (hy : y ∈ w.stack) (hx : Relation.ReflTransGen s.Requires y x) :
    ∀ u ∈ L, ∀ z, Relation.ReflTransGen s.Requires x z → z ∉ u.stack := fun u hu z hz ↦
  (List.pairwise_cons.1 h.apart).1 u hu y hy z (hx.trans hz)

/-- A module that the walk comes to and does not enter is linked, or lies on the stack of the walk. -/
theorem linked_or_mem (h : Linking s (w :: L)) (hm : m ∈ w.stack) (hd : s.Requires m d)
    (hold : s.Old d) (hstatus : s.status? d ≠ some .unlinked) : s.Linked d ∨ d ∈ w.stack := by
  by_cases hlinking : s.status? d = some .linking
  · obtain ⟨u, hu, hdu⟩ := h.whole d hlinking
    rcases List.mem_cons.1 hu with rfl | hu
    · exact .inr hdu
    · exact absurd hdu (h.far hm (.single hd) u hu d .refl)
  · refine .inl (Store.linked_iff.2 fun status hs ↦ ?_)
    have hnew : status ≠ .new := fun heq ↦ hold (heq ▸ hs)
    have hunlinked : status ≠ .unlinked := fun heq ↦ hstatus (heq ▸ hs)
    have hother : status ≠ .linking := fun heq ↦ hlinking (heq ▸ hs)
    cases status <;> first | contradiction | decide

/-! ### Steps of walks -/

/-- A walk starts, at a module that does not lead to any that is being linked. -/
theorem start (h : Linking s L) (hl : Linkage s (L.map LinkWalk.tour))
    (hm : s.status? m = some .unlinked)
    (hfar : ∀ x, Relation.ReflTransGen s.Requires m x → s.status? x ≠ some .linking) :
    Linking ((s.setStatus m .linking).setDfsIndex m 0)
      ({ frames := [⟨m, (s.entries m).requests⟩], stack := [m], index := 1 } :: L) := by
  have hsame := (LinkWalk.enter_inside hm 0).same
  have hlinked := LinkWalk.linked_enter hm 0
  refine h.cons_empty.next (W := some _) hl.cons_empty hsame (fun x ↦ (hlinked x).2) (fun x _ hx ↦ ?_)
    (h.closed.of_linked hsame hlinked) (fun x hx hlinking ↦ ⟨_, rfl, ?_⟩) ?_ ?_
  · refine LinkWalk.points?_enter_of_ne ?_ 0
    rintro rfl
    exact nomatch hm.symm.trans hx
  · by_cases hxm : x = m
    · exact hxm ▸ List.mem_cons_self
    · rw [LinkWalk.status?_enter_of_ne hxm] at hlinking
      obtain ⟨u, hu, hxu⟩ := h.whole x hlinking
      exact absurd (List.mem_flatMap.2 ⟨u, hu, hxu⟩) hx
  · rintro _ ⟨⟩
    exact .start hm
  · rintro _ ⟨⟩ u hu x hx y hy hyu
    obtain rfl := List.mem_singleton.1 hx
    exact hfar y hy (hl.linking u.tour (List.mem_map_of_mem hu) y hyu)

/-- The walk on top enters a module. -/
theorem enter (h : Linking s (w :: L)) (hl : Linkage s ((w :: L).map LinkWalk.tour)) {q : Request}
    {requests : List Request} {rest : List LinkFrame} (hframes : w.frames = ⟨m, q :: requests⟩ :: rest)
    (hq : s.imported? m q = some d) (hrequires : s.Requires m d) (hd : s.status? d = some .unlinked) :
    Linking ((s.setStatus d .linking).setDfsIndex d w.index)
      ({ frames := ⟨d, (s.entries d).requests⟩ :: ⟨m, requests⟩ :: rest
         stack := d :: w.stack
         index := w.index + 1 } :: L) := by
  have htidy := h.tidy w List.mem_cons_self
  have hm : m ∈ w.stack := htidy.mem (f := ⟨m, q :: requests⟩) (hframes ▸ List.mem_cons_self)
  have hlinking : ∀ x ∈ w.stack, s.status? x = some .linking := hl.linking w.tour List.mem_cons_self
  have hsame := (LinkWalk.enter_inside hd w.index).same
  have hlinked := LinkWalk.linked_enter hd w.index
  refine h.next (W := some _) hl hsame (fun x ↦ (hlinked x).2) (fun x _ hx ↦ ?_)
    (h.closed.of_linked hsame hlinked) (fun x hx hs' ↦ ⟨_, rfl, ?_⟩) ?_ ?_
  · refine LinkWalk.points?_enter_of_ne ?_ w.index
    rintro rfl
    exact nomatch hd.symm.trans hx
  · by_cases hxd : x = d
    · exact hxd ▸ List.mem_cons_self
    · rw [LinkWalk.status?_enter_of_ne hxd] at hs'
      obtain ⟨u, hu, hxu⟩ := h.whole x hs'
      rcases List.mem_cons.1 hu with rfl | hu
      · exact List.mem_cons_of_mem d hxu
      · exact absurd (List.mem_flatMap.2 ⟨u, hu, hxu⟩) hx
  · rintro _ ⟨⟩
    exact htidy.enter hframes hq hd hlinking
  · rintro _ ⟨⟩ u hu x hx
    rcases List.mem_cons.1 hx with rfl | hx
    · exact h.far hm (.single hrequires) u hu
    · exact h.far hx .refl u hu

/-- A walk that stays where it is, or comes to a module that it does not enter. -/
theorem stay (h : Linking s (w :: L)) (hl : Linkage s ((w :: L).map LinkWalk.tour))
    (hs : Same s s') (hstatus : ∀ x, s'.status? x = s.status? x)
    (hpoints : ∀ x, x ∉ w.stack → s'.points? x = s.points? x) (htidy : w'.Tidy s')
    (hstack : w'.stack = w.stack) : Linking s' (w' :: L) := by
  have hlinked : ∀ x, s'.Linked x ↔ s.Linked x := fun x ↦ by
    rw [Store.linked_iff, hstatus, Store.linked_iff]
  refine h.next (W := some w') hl hs (fun x ↦ (hlinked x).2) (fun x hx _ ↦ hpoints x hx)
    (h.closed.of_linked hs hlinked) (fun x hx hs' ↦ ⟨w', rfl, ?_⟩) ?_ ?_
  · rw [hstatus] at hs'
    obtain ⟨u, hu, hxu⟩ := h.whole x hs'
    rcases List.mem_cons.1 hu with rfl | hu
    · rwa [hstack]
    · exact absurd (List.mem_flatMap.2 ⟨u, hu, hxu⟩) hx
  · rintro _ ⟨⟩
    exact htidy
  · rintro _ ⟨⟩ u hu x hx
    exact h.far (hstack ▸ hx) .refl u hu

/-- The walk on top is over. -/
theorem done (h : Linking s (w :: L)) (hl : Linkage s ((w :: L).map LinkWalk.tour))
    (hframes : w.frames = []) : Linking s L := by
  have hempty : w.stack = [] := by
    have hstacked := (h.tidy w List.mem_cons_self).stacked
    rw [hframes] at hstacked
    generalize w.stack = R at hstacked
    cases hstacked
    rfl
  refine h.next (W := none) hl (Aside.refl s).steady.toSame (fun _ ↦ id) (fun _ _ _ ↦ rfl) h.closed
    (fun x hx hs ↦ ?_) nofun nofun
  obtain ⟨u, hu, hxu⟩ := h.whole x hs
  rcases List.mem_cons.1 hu with rfl | hu
  · exact absurd (hempty ▸ hxu) List.not_mem_nil
  · exact absurd (List.mem_flatMap.2 ⟨u, hu, hxu⟩) hx

/-- The walk on top fails. -/
theorem fail (h : Linking s (w :: L)) (hl : Linkage s ((w :: L).map LinkWalk.tour)) :
    Linking (s.unlink w.stack) L := by
  have hlinking : ∀ x ∈ w.stack, s.status? x = some .linking := hl.linking w.tour List.mem_cons_self
  have hsame := (LinkWalk.unlink_inside (w := w) hl rfl).1.same
  have hstatus := Store.status?_unlink hlinking
  have hlinked := fun x ↦ Store.linked_unlink (x := x) hlinking
  refine h.next (W := none) hl hsame (fun x ↦ (hlinked x).2) (fun x _ _ ↦ ?_)
    (h.closed.of_linked hsame hlinked) (fun x hx hs ↦ ?_) nofun nofun
  · exact Store.points?_foldl_setStatus _ _ _ x
  · rw [hstatus] at hs
    split at hs
    · contradiction
    · next hnot =>
      obtain ⟨u, hu, hxu⟩ := h.whole x hs
      rcases List.mem_cons.1 hu with rfl | hu
      · exact absurd hxu hnot
      · exact absurd (List.mem_flatMap.2 ⟨u, hu, hxu⟩) hx

/-- The walk on top is through with a module. -/
theorem conclude (h : Linking s ({ w with frames := ⟨m, []⟩ :: w.frames } :: L))
    (hl : Linkage s (w.tourAt m :: L.map LinkWalk.tour)) :
    Linking (w.conclude s m).1 ((w.conclude s m).2 :: L) := by
  have hconcludes := (h.tidy _ List.mem_cons_self).conclude hl
  have hsame := (LinkWalk.conclude_linkage hl).1.same
  have hlinked : ∀ x, s.Linked x → (w.conclude s m).1.Linked x := fun x hx ↦ by
    rw [Store.linked_iff, hconcludes.status]
    split
    · exact fun status hs ↦ (Option.some.inj hs).le
    · exact Store.linked_iff.1 hx
  refine h.next (W := some _) hl hsame hlinked (fun x hx _ ↦ hconcludes.points x hx)
    (hconcludes.closed h.closed) (fun x hx hs ↦ ⟨_, rfl, ?_⟩) ?_ ?_
  · rw [hconcludes.status] at hs
    split at hs
    · contradiction
    · next hnot =>
      obtain ⟨u, hu, hxu⟩ := h.whole x hs
      rcases List.mem_cons.1 hu with rfl | hu
      · by_contra hout
        exact hnot ⟨hxu, hout⟩
      · exact absurd (List.mem_flatMap.2 ⟨u, hu, hxu⟩) hx
  · rintro _ ⟨⟩
    exact hconcludes.tidy
  · rintro _ ⟨⟩ u hu x hx
    exact h.far (hconcludes.subset hx) .refl u hu

end Linking

/-! ## Tasks and frames -/

/-- The walk that a task is, if it links. -/
def Task.linkWalks : Task → List LinkWalk
  | .linking w => [w]
  | _ => []

/-- The walk that waits in a frame, if it links. It has still to be through with the module whose
environment is being set up. -/
def Frame.linkWalks : Frame → List LinkWalk
  | .setUp m w => [{ w with frames := ⟨m, []⟩ :: w.frames }]
  | _ => []

/-- The walks that link in what comes next. -/
def Next.linkWalks : Next → List LinkWalk
  | .goto t => t.linkWalks
  | .call t f => t.linkWalks ++ f.linkWalks
  | .give _ => []

theorem Task.map_linkWalks (t : Task) : t.linkWalks.map LinkWalk.tour = t.linkTours := by
  cases t <;> rfl

theorem Frame.map_linkWalks (f : Frame) : f.linkWalks.map LinkWalk.tour = f.linkTours := by
  cases f <;> rfl

theorem Next.map_linkWalks (n : Next) : n.linkWalks.map LinkWalk.tour = n.linkTours := by
  cases n with
  | goto t => exact t.map_linkWalks
  | call t f => rw [linkWalks, List.map_append, t.map_linkWalks, f.map_linkWalks, linkTours]
  | give r => rfl

theorem Next.linkWalks_eq_nil {n : Next} (h : n.linkTours = []) : n.linkWalks = [] :=
  List.map_eq_nil_iff.1 (n.map_linkWalks.trans h)

namespace Linking

theorem furnishing (h : Linking s L) (hl : Linkage s (L.map LinkWalk.tour)) (hr : s.Rounded)
    (ha : Furnishing s s') : Linking s' L :=
  h.skirt hl hr (.of_loads (.of_furnishing ha) (.of_furnishing ha) hr)

/-- A walk takes a step. -/
theorem advance (h : Linking s (w :: L)) (hl : Linkage s ((w :: L).map LinkWalk.tour))
    (hr : s.Rounded) :
    Linking ((w.advance s).2.next (w.advance s).1).1
      (((w.advance s).2.next (w.advance s).1).2.linkWalks ++ L) := by
  have htidy := h.tidy w List.mem_cons_self
  have hlinking : ∀ x ∈ w.stack, s.status? x = some .linking := hl.linking w.tour List.mem_cons_self
  have hadvances := w.advances s
  generalize w.advance s = out at hadvances ⊢
  cases hadvances with
  | done hframes => exact h.done hl hframes
  | @environment s' m rest hframes hinit =>
    have hw : ({ w with frames := ⟨m, []⟩ :: rest } : LinkWalk) = w := by rw [← hframes]
    have hnext := h.furnishing hl hr (hinit ▸ s.initializeEnvironment_furnishing m)
    rw [← hw] at hnext
    exact hnext
  | @broken s' m rest e hframes hinit =>
    have ha := s.initializeEnvironment_furnishing m
    rw [hinit] at ha
    exact (h.furnishing hl hr ha).fail (hl.keep fun _ _ x _ hx ↦ (ha.level.status x).trans hx)
  | absent hframes hq =>
    refine h.stay hl (Aside.refl s).steady.toSame (fun _ ↦ rfl) (fun _ _ ↦ rfl) ?_ rfl
    exact htidy.pass hframes fun d hd ↦ nomatch hq.symm.trans hd
  | enter hframes hq hd => exact h.enter hl hframes hq (htidy.requires hframes hq) hd
  | @meet m d q requests rest hframes hq hd =>
    have hm : m ∈ w.stack := htidy.mem (f := ⟨m, q :: requests⟩) (hframes ▸ List.mem_cons_self)
    have hrequires := htidy.requires hframes hq
    have hold := hr.requires (Store.old_of_linking (hlinking m hm)) hrequires
    refine h.stay hl (LinkWalk.leave_inside (hlinking m hm) d).same (LinkWalk.status?_leave s m d)
      (fun x hx ↦ LinkWalk.points?_leave_of_ne ?_ d) ?_ rfl
    · rintro rfl
      exact hx hm
    · exact htidy.meet hframes hq hlinking (h.linked_or_mem hm hrequires hold hd)

/-- A module is to be linked. -/
theorem link (h : Linking s L) (hl : Linkage s (L.map LinkWalk.tour)) (hr : s.Rounded)
    (hfar : s.status? m ≠ some .linking →
      ∀ x, Relation.ReflTransGen s.Requires m x → s.status? x ≠ some .linking) :
    Linking (Task.advance s (.link m)).1 ((Task.advance s (.link m)).2.linkWalks ++ L) := by
  have hbegins := Task.link_begins s m
  generalize Task.advance s (.link m) = out at hbegins ⊢
  cases hbegins with
  | refused message _ => exact h.furnishing hl hr (Aside.throw s _ message).furnishing
  | enter hm => exact h.start hl hm (hfar (by simp [hm]))
  | linked _ => exact h.cons_empty

/-- The environment of a module has been set up, or could not be. -/
theorem setUp (h : Linking s ({ w with frames := ⟨m, []⟩ :: w.frames } :: L))
    (hl : Linkage s (w.tourAt m :: L.map LinkWalk.tour)) (r : Result) :
    Linking (Frame.resume s r (.setUp m w)).1
      ((Frame.resume s r (.setUp m w)).2.linkWalks ++ L) := by
  have hresumes := Frame.setUp_resumes s r m w
  generalize Frame.resume s r (.setUp m w) = x at hresumes ⊢
  cases hresumes with
  | done _ => exact h.conclude hl
  | failed _ => exact h.fail hl

end Linking

/-! ## Steps of the machine -/

namespace Store

/-- The modules that are linked, and the requests that modules make. -/
def linkedScope (s : Store) : Scope := ⟨s.Linked, fun m r ↦ r ∈ (s.entries m).requests⟩

theorem LinkClosed.holds (h : s.LinkClosed) : s.Holds s.linkedScope :=
  ⟨fun _ _ ↦ id, fun m r d hm hr hd ↦ h m d hm ⟨r, hr, hd⟩⟩

theorem Linked.ascend (h : s.Linked x) (hs : s.Ascends s') : s'.Linked x := fun r' hr' ↦ by
  obtain ⟨r, hr, hrel⟩ := Each.before hs hr'
  exact (h r hr).trans hrel.rises

theorem Linked.relapse (h : s.Linked x) (hs : s.Relapses s') : s'.Linked x := fun r' hr' ↦ by
  obtain ⟨r, hr, hrel⟩ := Each.before hs hr'
  rcases hrel.status with heq | ⟨heq, -⟩
  · exact heq ▸ h r hr
  · exact absurd (heq ▸ h r hr) (by decide)

end Store

/-- What comes next is in scope, but for walks that link. -/
def Next.Beside (K : Scope) : Next → Prop
  | .goto t => t.linkWalks = [] → t.Among K
  | .call t f => (t.linkWalks = [] → t.Among K) ∧ (f.linkWalks = [] → f.Among K)
  | .give _ => True

theorem Next.Among.beside {K : Scope} {n : Next} (h : n.Among K) : n.Beside K := by
  cases n with
  | goto t => exact fun _ ↦ h
  | call t f => exact ⟨fun _ ↦ h.1, fun _ ↦ h.2⟩
  | give r => trivial

theorem Next.Beside.mono {K K' : Scope} {n : Next} (h : n.Beside K) (hK : K.Within K') :
    n.Beside K' := by
  cases n with
  | goto t => exact fun ht ↦ Task.Among.mono (h ht) hK
  | call t f => exact ⟨fun ht ↦ (h.1 ht).mono hK, fun hf ↦ (h.2 hf).mono hK⟩
  | give r => trivial

/-- What a walk that links does next has nothing to do with evaluation. -/
theorem LinkStep.next_beside {K : Scope} (s : Store) (step : LinkStep) :
    (step.next s).2.Beside K := by
  cases step with
  | done => trivial
  | failed e stack => trivial
  | go w => exact nofun
  | setUp m w => exact ⟨fun _ ↦ trivial, nofun⟩

theorem Task.link_beside {K : Scope} (s : Store) (m : ModuleId) :
    (Task.advance s (.link m)).2.Beside K := by
  have hbegins := Task.link_begins s m
  generalize Task.advance s (.link m) = out at hbegins ⊢
  cases hbegins with
  | refused message _ => trivial
  | _ => exact nofun

/-- The modules that a walk enters are in scope. -/
theorem Next.Among.trail {K : Scope} {n : Next} (h : n.Among K) (s : Store) (fs : List Frame) :
    ∀ p ∈ (Machine.apply fs (s, n)).trail, K.has p.1 := by
  have htask : ∀ t : Task, t.Among K → ∀ p ∈ t.trail, K.has p.1 := fun t ht p hp ↦ by
    cases t with
    | evaluation goal w =>
      obtain ⟨f, hf, rfl⟩ := List.mem_map.1 hp
      exact (EvaluationWalk.Among.frames ht f hf).1
    | _ => exact absurd hp List.not_mem_nil
  cases n with
  | goto t => exact htask t h
  | call t f => exact htask t h.1
  | give r => exact List.forall_mem_nil _

namespace Machine

variable {M M' : Machine}

/-- The walks that link, the latest first. -/
def linkWalks (M : Machine) : List LinkWalk :=
  M.current.linkWalks ++ M.frames.flatMap Frame.linkWalks

theorem map_linkWalks (M : Machine) : M.linkWalks.map LinkWalk.tour = M.linkTours := by
  have hframes : (M.frames.flatMap Frame.linkWalks).map LinkWalk.tour =
      M.frames.flatMap Frame.linkTours := by
    rw [List.map_flatMap]
    exact congrArg (fun g ↦ M.frames.flatMap g) (funext Frame.map_linkWalks)
  rw [linkWalks, List.map_append, hframes, Next.map_linkWalks]
  obtain ⟨s, t | r, fs⟩ := M <;> rfl

theorem linkWalks_apply (fs : List Frame) (x : Store × Next) :
    (apply fs x).linkWalks = x.2.linkWalks ++ fs.flatMap Frame.linkWalks := by
  obtain ⟨s, n⟩ := x
  cases n with
  | call t f => exact (List.append_assoc _ _ _).symm
  | _ => rfl

/-- A module for which evaluation is called is linked. A module that is to be linked while others are
being linked does not lead to one of them, unless it is one itself. And the host answers with modules. -/
structure LinksApart (M M' : Machine) : Prop where
  evaluate : ∀ m, M.control = .run (.evaluate m) → M.store.Linked m
  link : ∀ m, M.control = .run (.link m) → M.linkWalks ≠ [] → M.store.status? m ≠ some .linking →
    ∀ x, Relation.ReflTransGen M.store.Requires m x → M.store.status? x ≠ some .linking
  answers : ∀ a rest m, M.control = .run (.answers (a :: rest)) → a.outcome = .ok m →
    (M.store.module? m).isSome

theorem LinksApart.fair (h : M.LinksApart M') : M.Fair M' :=
  ⟨fun m hm ↦ (h.evaluate m hm).old, h.answers⟩

/-- What holds of every machine in a run in which linking comes to no module that is being linked. -/
structure Interlinked (M : Machine) : Prop where
  charted : M.Charted
  upward : M.Upward
  linking : Linking M.store M.linkWalks
  refers : M.store.Refers M.store.linkedScope
  current : M.current.Beside M.store.linkedScope
  frames : ∀ f ∈ M.frames, f.linkWalks = [] → f.Among M.store.linkedScope

/-- The next step has nothing to do with walks that link or evaluate. -/
def StandsAside (M : Machine) : Prop :=
  (∃ t, M.control = .run t ∧ t.isWalk = false) ∨
    ∃ r f fs, M.control = .give r ∧ M.frames = f :: fs ∧ f.isWalk = false

/-- What a step does to the modules that are being linked. -/
inductive Interlinks (M : Machine) : Store × Next → Prop where
  /-- It is a step of linking. -/
  | links {x : Store × Next} : (∃ m, M.control = .run (.link m)) ∨ M.links →
      Inside M.store x.1 → x.2.tours = [] →
      x.2.Beside M.store.linkedScope →
      Linking x.1 (x.2.linkWalks ++ M.rest.flatMap Frame.linkWalks) → Interlinks M x
  /-- It stays among modules that are linked. -/
  | evaluates {x : Store × Next} : ¬M.links → M.store.Steps M.store.linkedScope x →
      x.2.linkWalks = [] → M.linkWalks = M.rest.flatMap Frame.linkWalks → Interlinks M x
  /-- It has nothing to do with linking and evaluating. -/
  | loads {x : Store × Next} : M.StandsAside → M.store.Loads x.1 → Afar M.store x.1 → x.2.Quiet →
      M.linkWalks = M.rest.flatMap Frame.linkWalks → Interlinks M x

theorem Interlinked.interlinks (h : M.Interlinked) (hP : M.LinksApart M') {x : Store × Next}
    (hnext : M.next? = some x) : M.Interlinks x := by
  have hr := h.charted.charts.rounded
  have hk := h.linking.closed.holds
  have hl := M.map_linkWalks ▸ h.upward.linkage
  obtain ⟨s, control, fs⟩ := M
  rcases control with t | r
  · obtain rfl : x = t.advance s := advance_of_next? hnext
    by_cases hlink : ∃ m, t = .link m
    · obtain ⟨m, rfl⟩ := hlink
      have hlinking : Linking s (fs.flatMap Frame.linkWalks) := h.linking
      refine .links (.inl ⟨m, rfl⟩) (Task.link_inside (L := []) (Linkage.nil s) m).1
        (Task.link_binds s m).still.tours (Task.link_beside s m) (hlinking.link hl hr fun hm x hx ↦ ?_)
      by_cases hnone : fs.flatMap Frame.linkWalks = []
      · rw [hnone] at hlinking
        exact hlinking.not_linking x
      · exact hP.link m rfl hnone hm x hx
    by_cases hlinking : ∃ w, t = .linking w
    · obtain ⟨w, rfl⟩ := hlinking
      have hl' : Linkage s ((w :: fs.flatMap Frame.linkWalks).map LinkWalk.tour) := hl
      exact .links (.inr (.inl ⟨w, rfl⟩)) (LinkWalk.advance_inside hl').1
        (LinkWalk.advance_binds s w).still.tours (LinkStep.next_beside _ _)
        (Linking.advance h.linking hl' hr)
    rw [not_exists] at hlink hlinking
    have hwalks : t.linkWalks = [] := by
      cases t with
      | linking w => exact absurd rfl (hlinking w)
      | _ => rfl
    have hrest : (Machine.mk s (.run t) fs).linkWalks = fs.flatMap Frame.linkWalks := by
      change t.linkWalks ++ _ = _
      rw [hwalks]
      rfl
    cases hremote : t.isRemote with
    | true =>
      have hw : t.isWalk = false := by cases t <;> first | rfl | contradiction
      obtain ⟨hafar, hquiet, -⟩ := Task.advance_quiet s hw
      exact .loads (.inl ⟨t, rfl, hw⟩) (Task.advance_loads s hw) hafar hquiet hrest
    | false =>
      refine .evaluates ?_ (Task.evaluating_steps h.refers hk (h.current hwalks)
        (fun m ht ↦ hP.evaluate m (congrArg _ ht)) (fun m _ hforce r hm ↦ ?_) ?_ hremote)
        (Next.linkWalks_eq_nil (Task.linkTours_advance s hlink hlinking)) hrest
      · rintro (⟨w, hw⟩ | ⟨_, _, _, _, hr, -⟩)
        · exact hlinking w (Control.run.inj hw)
        · cases hr
      · exact Store.linked_of_force hm hforce
      · cases t with
        | link m => exact absurd rfl (hlink m)
        | linking w => exact absurd rfl (hlinking w)
        | _ => rfl
  · rcases fs with _ | ⟨f, fs⟩
    · cases hnext
    obtain rfl : x = f.resume s r := (Option.some.inj hnext).symm
    by_cases hsetUp : ∃ m w, f = .setUp m w
    · obtain ⟨m, w, rfl⟩ := hsetUp
      have hl' : Linkage s (w.tourAt m :: (fs.flatMap Frame.linkWalks).map LinkWalk.tour) := hl
      refine .links (.inr (.inr ⟨r, m, w, fs, rfl, rfl⟩)) (Frame.setUp_inside hl' r).1
        (LinkWalk.setUp_binds s r m w).still.tours ?_ (Linking.setUp h.linking hl' r)
      simp only [Frame.resume]
      split
      · exact fun h ↦ by cases h
      · trivial
    simp only [not_exists] at hsetUp
    have hwalks : f.linkWalks = [] := by
      cases f with
      | setUp m w => exact absurd rfl (hsetUp m w)
      | _ => rfl
    have hrest : (Machine.mk s (.give r) (f :: fs)).linkWalks = fs.flatMap Frame.linkWalks := by
      change f.linkWalks ++ _ = _
      rw [hwalks]
      rfl
    by_cases hin : ∀ m, f ≠ .syntheticSteps m
    · refine .evaluates ?_ (Frame.resume_steps h.refers (h.frames f List.mem_cons_self hwalks) r hin)
        (Next.linkWalks_eq_nil (Frame.linkTours_resume s r hsetUp)) hrest
      rintro (⟨w, hw⟩ | ⟨_, m, w, _, -, hf⟩)
      · cases hw
      · exact hsetUp m w (List.cons.inj hf).1
    · simp only [ne_eq, not_forall, not_not] at hin
      obtain ⟨m, rfl⟩ := hin
      obtain ⟨hafar, hquiet, -⟩ := Frame.resume_quiet s r (f := .syntheticSteps m) rfl
      exact .loads (.inr ⟨r, .syntheticSteps m, fs, rfl, rfl, rfl⟩) (Frame.resume_loads s r rfl) hafar hquiet hrest

/-- The modules that walks enter are linked. -/
theorem Interlinked.asserts (h : M.Interlinked) (hP : M.LinksApart M') : M.Asserts M.step := by
  intro m t hpush
  obtain ⟨r, -, hr, -⟩ := hpush.enters
  refine ⟨r, hr, ?_⟩
  have htrail := hpush.2
  rcases hnext : M.next? with _ | ⟨s', n⟩
  · rw [step_of_next?_eq_none hnext] at htrail
    exact absurd (congrArg List.length htrail) (by simp)
  rw [step_of_next? hnext] at htrail
  cases h.interlinks hP hnext with
  | links _ _ htours =>
    rw [Next.trail_of_tours _ htours] at htrail
    contradiction
  | evaluates _ hsteps =>
    exact hsteps.next.trail s' M.rest (m, t) (htrail ▸ List.mem_cons_self) r hr
  | loads _ _ _ hquiet =>
    rw [Next.trail_of_tours _ hquiet.tours] at htrail
    contradiction

theorem Climbs.linked (h : M.Climbs) (hx : M.store.Linked x) : M.step.store.Linked x :=
  h.elim hx.ascend fun hu ↦ hx.relapse hu.relapses

/-- What is linked stays linked, and has the same requests. -/
theorem Interlinked.within (h : M.Interlinked) (hP : M.LinksApart M') :
    M.store.linkedScope.Within M.step.store.linkedScope := by
  have hclimbs := (h.upward.step (h.asserts hP)).2
  refine ⟨fun x hx ↦ hclimbs.linked hx, fun m r hr ↦ ?_⟩
  simpa only [Store.linkedScope, (h.charted.builds hP.fair).1.entries] using hr

theorem Interlinked.apply {K K' : Scope} {n : Next} {fs : List Frame} (hn : n.Beside K)
    (hfs : ∀ f ∈ fs, f.linkWalks = [] → f.Among K) (hK : K.Within K') :
    (apply fs (s, n)).current.Beside K' ∧
      ∀ f ∈ (apply fs (s, n)).frames, f.linkWalks = [] → f.Among K' := by
  have hfs' : ∀ f ∈ fs, f.linkWalks = [] → f.Among K' := fun f hf hw ↦ (hfs f hf hw).mono hK
  replace hn := hn.mono hK
  cases n with
  | goto t => exact ⟨hn, hfs'⟩
  | call t f => exact ⟨hn.1, List.forall_mem_cons.2 ⟨hn.2, hfs'⟩⟩
  | give r => exact ⟨trivial, hfs'⟩

theorem mem_of_mem_rest {f : Frame} (hf : f ∈ M.rest) : f ∈ M.frames := by
  obtain ⟨s, t | r, _ | ⟨g, fs⟩⟩ := M
  · exact hf
  · exact hf
  · exact hf
  · exact List.mem_cons_of_mem g hf

/-- One step. -/
theorem Interlinked.step (h : M.Interlinked) (hP : M.LinksApart M') : M.step.Interlinked := by
  obtain ⟨hup, hclimbs⟩ := h.upward.step (h.asserts hP)
  have hbuilds := (h.charted.builds hP.fair).1
  have hwithin := h.within hP
  have hr := h.charted.charts.rounded
  have hl := M.map_linkWalks ▸ h.upward.linkage
  rcases hnext : M.next? with _ | ⟨s', n⟩
  · rwa [step_of_next?_eq_none hnext]
  have hstep := step_of_next? hnext
  have hstore : M.step.store = s' := by rw [hstep, store_apply]
  have hrest : ∀ f ∈ M.rest, f.linkWalks = [] → f.Among M.store.linkedScope := fun f hf ↦
    h.frames f (mem_of_mem_rest hf)
  -- what is left to show
  have hall : Linking s' (n.linkWalks ++ M.rest.flatMap Frame.linkWalks) →
      s'.Refers M.store.linkedScope → n.Beside M.store.linkedScope → M.step.Interlinked :=
    fun hlinking hrefers hn ↦ by
      have happly := Interlinked.apply (s := s') hn hrest hwithin
      rw [← hstep] at happly
      refine ⟨h.charted.step hP.fair, hup, ?_, ?_, happly.1, happly.2⟩
      · rw [hstep, linkWalks_apply, store_apply]
        exact hlinking
      · rw [hstore] at hwithin ⊢
        exact hrefers.mono hwithin
  cases h.interlinks hP hnext with
  | links _ hinside _ hn hlinking => exact hall hlinking (h.refers.aside hinside) hn
  | evaluates hnot hsteps hwalks hsame =>
    refine hall ?_ (h.refers.among hsteps.store) hsteps.next.beside
    have hskirts : M.store.Skirts s' := .of_among (fun _ ↦ Iff.rfl) hsteps.store
      (hstore ▸ hclimbs.resolve_right fun hu ↦ hnot hu.links)
    dsimp only at hwalks
    rw [hwalks, List.nil_append, ← hsame]
    exact h.linking.skirt hl hr hskirts
  | loads _ hloads hafar hquiet hsame =>
    refine hall ?_ (h.refers.aside hafar) hquiet.among.beside
    rw [Next.linkWalks_eq_nil hquiet.linkTours, List.nil_append, ← hsame]
    exact h.linking.skirt hl hr (.of_loads hloads (hstore ▸ hbuilds) hr)

/-- What a step does, as far as linking goes. -/
inductive Proceeds (M : Machine) : Store × Next → Prop where
  /-- A walk starts, or is refused. -/
  | link {m : ModuleId} {x : Store × Next} : M.control = .run (.link m) → M.store.Begins m x →
      Proceeds M x
  /-- A walk takes a step. -/
  | walk {w : LinkWalk} {out : Store × LinkStep} : M.control = .run (.linking w) →
      w.Advances M.store out → Proceeds M (out.2.next out.1)
  /-- The steps that a body takes when its environment is set up have come to their end. -/
  | setUp {r : Result} {m : ModuleId} {w : LinkWalk} {fs : List Frame} {x : Store × Next} :
      M.control = .give r → M.frames = .setUp m w :: fs → w.Resumes M.store r m x → Proceeds M x
  /-- The step is nothing to linking. -/
  | beside {x : Store × Next} : M.store.Skirts x.1 → M.store.Ascends x.1 → x.2.linkWalks = [] →
      M.linkWalks = M.rest.flatMap Frame.linkWalks → Proceeds M x

theorem Interlinked.proceeds (h : M.Interlinked) (hP : M.LinksApart M') {x : Store × Next}
    (hnext : M.next? = some x) : M.Proceeds x := by
  by_cases hlinks : (∃ m, M.control = .run (.link m)) ∨ M.links
  · obtain ⟨s, control, fs⟩ := M
    rcases hlinks with ⟨m, rfl⟩ | ⟨w, rfl⟩ | ⟨r, m, w, rest, rfl, rfl⟩
    · obtain rfl : x = _ := advance_of_next? hnext
      exact .link rfl (Task.link_begins s m)
    · obtain rfl : x = _ := advance_of_next? hnext
      exact .walk rfl (w.advances s)
    · obtain rfl : x = _ := (Option.some.inj hnext).symm
      exact .setUp rfl rfl (Frame.setUp_resumes s r m w)
  obtain ⟨s', n⟩ := x
  have hstore : M.step.store = s' := by rw [step_of_next? hnext, store_apply]
  have hr := h.charted.charts.rounded
  have hascends : M.store.Ascends s' := by
    rw [← hstore]
    exact (h.upward.step (h.asserts hP)).2.resolve_right fun hu ↦ hlinks (.inr hu.links)
  cases h.interlinks hP hnext with
  | links hnow => exact absurd hnow hlinks
  | evaluates _ hsteps hwalks hsame =>
    exact .beside (.of_among (fun _ ↦ Iff.rfl) hsteps.store hascends) hascends hwalks hsame
  | loads _ hloads _ hquiet hsame =>
    refine .beside (.of_loads hloads ?_ hr) hascends (Next.linkWalks_eq_nil hquiet.linkTours) hsame
    exact hstore ▸ (h.charted.builds hP.fair).1

end Machine

/-! ## Runs -/

/-- What holds of every state in a run in which linking comes to no module that is being linked. -/
def State.Interlinked : State → Prop
  | .idle s => (State.idle s).Charted ∧ s.Upright ∧ s.Refers s.linkedScope ∧ Linking s []
  | .busy _ M => M.Interlinked

/-- The walks that link, the latest first. -/
def State.linkWalks : State → List LinkWalk
  | .idle _ => []
  | .busy _ M => M.linkWalks

theorem Store.Unread.interlinked (h : s.Unread) (hu : s.Upright) : (State.idle s).Interlinked := by
  have hnew : ∀ x status, s.status? x = some status → status = .new := fun x status hx ↦ by
    obtain ⟨r, hr, rfl⟩ := Option.map_eq_some_iff.1 hx
    exact (h.source x r hr).1
  refine ⟨⟨h.charts, h.refers _⟩, hu, h.refers _, .nil (fun m d hm hd ↦ ?_) fun x hx ↦ nomatch hnew x _ hx⟩
  obtain ⟨q, hq, -⟩ := hd
  rcases hr : s.source? m with _ | r
  · rw [Store.entries, hr] at hq
    exact absurd hq List.not_mem_nil
  · have hle := hm r hr
    rw [(h.source m r hr).1] at hle
    exact absurd hle (by decide)

theorem Store.Loads.within (h : s.Loads s') (hb : s.Builds s') :
    s.linkedScope.Within s'.linkedScope :=
  ⟨fun _ hx ↦ hx.ascend h.ascends, fun m r hr ↦ by
    simpa only [linkedScope, hb.entries] using hr⟩

/-- A change that has nothing to do with linking and evaluating. -/
theorem Machine.Interlinked.apart {M : Machine} (h : M.Interlinked) (ha : Apart M.store s') :
    ({ M with store := s' } : Machine).Interlinked := by
  have hwithin := (Store.Loads.of_apart ha).within (.of_apart ha)
  have hloads := Store.Loads.of_apart ha
  refine ⟨h.charted.apart ha, ?_, ?_, (h.refers.aside ha).mono hwithin, h.current.mono hwithin,
    fun f hf hw ↦ (h.frames f hf hw).mono hwithin⟩
  · exact ⟨h.upward.linkage.keep (hloads.linking.keeps _),
      fun τ hτ x hx ↦ (h.upward.aloft τ hτ x hx).ascend hloads.ascends,
      h.upward.upright.ascend hloads.ascends, ⟨h.upward.founded.current, h.upward.founded.frames⟩⟩
  · exact h.linking.furnishing (M.map_linkWalks ▸ h.upward.linkage) h.charted.charts.rounded ha.furnishing

theorem State.Interlinked.start {t : Task} (h : (State.idle s).Interlinked)
    (hcharted : (Machine.start s t).Charted) (htours : t.tours = []) (hlinks : t.linkTours = [])
    (ht : t.Among s.linkedScope) : (Machine.start s t).Interlinked := by
  obtain ⟨-, hupright, hrefers, hlinking⟩ := h
  have hwalks : (Machine.start s t).linkWalks = [] := by
    refine List.map_eq_nil_iff.1 ((Machine.map_linkWalks _).trans ?_)
    exact (List.append_nil _).trans hlinks
  refine ⟨hcharted, Machine.upward_start hupright htours hlinks, ?_, hrefers, fun _ ↦ ht, nofun⟩
  rw [hwalks]
  exact hlinking

theorem Act.begin_interlinked {a : Act} {st : State} (ha : a.begin s = some st)
    (h : (State.idle s).Interlinked) : st.Interlinked := by
  have hapart : ∀ {s'}, Apart s s' → (State.idle s').Charted → (State.idle s').Interlinked :=
    fun {s'} hs hcharted ↦ by
      obtain ⟨⟨hcharts, -⟩, hupright, hrefers, hlinking⟩ := h
      have hloads := Store.Loads.of_apart hs
      exact ⟨hcharted, hupright.ascend hloads.ascends,
        (hrefers.aside hs).mono (hloads.within (.of_apart hs)),
        hlinking.furnishing (Linkage.nil s) hcharts.rounded hs.furnishing⟩
  have hcharted := Act.begin_charted ha h.1
  cases a with
  | namespaceOf m phase =>
    obtain rfl := Option.some.inj ha
    exact hapart (s.namespaceOf_apart m phase) hcharted
  | settle label c =>
    obtain ⟨p, -, rfl⟩ := Option.map_eq_some_iff.1 ha
    exact hapart (.settle s p c) hcharted
  | job =>
    simp only [begin] at ha
    split at ha
    · contradiction
    · next j rest hj =>
      obtain rfl := Option.some.inj ha
      obtain ⟨⟨hcharts, -⟩, hupright, hrefers, hlinking⟩ := h
      have hb : s.Builds { s with jobs := rest } := .of_modules rfl
      have hloads : s.Loads { s with jobs := rest } := .of_modules rfl
      have hplans : ∀ m, Store.Plans { s with jobs := rest } (.completeModule m) →
          s.Plans (.completeModule m) := fun m hm ↦
        hm.imp_right (.imp fun c hc ↦ hj ▸ List.mem_cons_of_mem j hc)
      have hrefers' : Store.Refers { s with jobs := rest } s.linkedScope :=
        hrefers.of_outline rfl hplans
      have hwithin := hloads.within hb
      refine State.Interlinked.start ⟨?_, hupright.ascend hloads.ascends, hrefers'.mono hwithin,
        hlinking.skirt (Linkage.nil s) hcharts.rounded (.of_loads hloads hb hcharts.rounded)⟩
        hcharted rfl rfl fun m hm ↦ hwithin.has m ?_
      · exact ⟨Machine.Charted.charts hcharted, Machine.Among.refers (Machine.Charted.among hcharted)⟩
      · exact hrefers.plans m (.inr ⟨j.completion, hj ▸ hm ▸ List.mem_cons_self⟩)
  | _ =>
    obtain rfl := Option.some.inj ha
    exact h.start hcharted rfl rfl trivial

theorem State.Interlinked.turn {st st' : State} (h : st.Interlinked)
    (ht : Turn Machine.LinksApart st st') : st'.Interlinked := by
  cases ht with
  | call a ha => exact Act.begin_interlinked ha h
  | step hP => exact Machine.Interlinked.step h hP
  | consult _ hs => exact Machine.Interlinked.apart h hs.aside
  | @answer a M q as hq =>
    obtain ⟨s, control, fs⟩ := M
    obtain rfl : control = _ := Machine.control_of_question? hq
    obtain ⟨hcharted, hupward, hlinking, hrefers, -, hframes⟩ : (Machine.mk s _ fs).Interlinked := h
    exact ⟨⟨hcharted.charts, hcharted.among.refers, trivial, hcharted.among.frames⟩,
      hupward.control (.refl s) rfl rfl rfl, hlinking, hrefers, fun _ ↦ trivial, hframes⟩
  | @finish a M r hr =>
    obtain ⟨s, control, fs⟩ := M
    obtain ⟨rfl, rfl⟩ := Machine.end_of_result? hr
    obtain ⟨hcharted, hupward, hlinking, hrefers, -⟩ : (Machine.mk s _ []).Interlinked := h
    exact ⟨⟨hcharted.charts, hcharted.among.refers⟩, hupward.upright, hrefers, hlinking⟩

theorem State.Interlinked.turns {st st' : State} (h : st.Interlinked)
    (ht : Turns Machine.LinksApart st st') : st'.Interlinked := by
  induction ht with
  | refl => exact h
  | tail _ ht ih => exact ih.turn ht

theorem State.Interlinked.charts {st : State} (h : st.Interlinked) : ∃ W T, st.store.Charts W T := by
  cases st with
  | idle s => exact ⟨_, _, h.1.1⟩
  | busy a M => exact ⟨_, _, Machine.Charted.charts (Machine.Interlinked.charted h)⟩

theorem State.Interlinked.linking {st : State} (h : st.Interlinked) :
    Linking st.store st.linkWalks ∧ Linkage st.store (st.linkWalks.map LinkWalk.tour) := by
  cases st with
  | idle s => exact ⟨h.2.2.2, .nil s⟩
  | busy a M =>
    refine ⟨Machine.Interlinked.linking h, ?_⟩
    have hlinkage := (Machine.Interlinked.upward h).linkage
    rwa [← M.map_linkWalks] at hlinkage

/-- In runs in which linking comes to no module that is being linked further up: a linked module has
requested only linked modules, no module is being linked when no walk links, and of the modules that
are requested by those on the stack of the latest walk exactly those are being linked that are on this
stack, too. -/
theorem linked_modules_request_linked_ones {s₀ : Store} {st : State} (hs : s₀.Unread)
    (hfresh : s₀.Fresh) (hturns : Turns Machine.LinksApart (.idle s₀) st) :
    (∀ m r, st.store.source? m = some r → .linked ≤ r.status →
      ∀ q ∈ r.entries.requests, ∃ d, st.store.imported? m q = some d ∧
        ∀ r', st.store.source? d = some r' → .linked ≤ r'.status) ∧
    (st.linkWalks = [] → ∀ m, st.store.status? m ≠ some .linking) ∧
    ∀ w L, st.linkWalks = w :: L → ∀ m ∈ w.stack, ∀ d, st.store.Requires m d →
      (st.store.status? d = some .linking ↔ d ∈ w.stack) := by
  have h := (hs.interlinked hfresh.upright).turns hturns
  obtain ⟨W, T, hcharts⟩ := h.charts
  obtain ⟨hlinking, hlinkage⟩ := h.linking
  refine ⟨fun m r hr hle q hq ↦ ?_, fun hnone ↦ ?_, fun w L hw m hm d hd ↦ ⟨fun hstatus ↦ ?_, fun hmem ↦ ?_⟩⟩
  · have hm : st.store.Linked m := fun r' hr' ↦ by rwa [← Option.some.inj (hr.symm.trans hr')]
    have hq : q ∈ (st.store.entries m).requests := by
      rw [Store.entries, hr]
      exact hq
    obtain ⟨d, hd, -⟩ := hcharts.rounded m hm.old q hq
    exact ⟨d, hd, hlinking.closed m d hm ⟨q, hq, hd⟩⟩
  · rw [hnone] at hlinking
    exact hlinking.not_linking
  · rw [hw] at hlinking
    obtain ⟨u, hu, hdu⟩ := hlinking.whole d hstatus
    rcases List.mem_cons.1 hu with rfl | hu
    · exact hdu
    · exact absurd hdu (hlinking.far hm (.single hd) u hu d .refl)
  · rw [hw] at hlinkage
    exact hlinkage.linking w.tour List.mem_cons_self d hmem

/-! ## Graphs with steps that are taken in linking -/

namespace Machine

/-- A check for `LinksApart`, in runs that have nothing evaluated: when a module is to be linked, it
requests nothing, or no module is being linked. -/
def linksAside (M : Machine) : Bool :=
  match M.control with
  | .run (.evaluate _) => false
  | .run (.link m) =>
    (M.store.entries m).requests.isEmpty && M.store.status? m != some .linking ||
      (List.range M.store.modules.size).all fun i ↦ M.store.status? ⟨i⟩ != some .linking
  | .run (.answers (⟨_, .ok m⟩ :: _)) => (M.store.module? m).isSome
  | _ => true

theorem linksApart_of_linksAside (M M' : Machine) (h : M.linksAside = true) : M.LinksApart M' := by
  refine ⟨fun m hm ↦ ?_, fun m hm _ _ x hx ↦ ?_, fun a rest m hm ha ↦ ?_⟩
  · simp [linksAside, hm] at h
  · rw [linksAside, hm, Bool.or_eq_true, Bool.and_eq_true, List.isEmpty_iff, bne_iff_ne,
      List.all_eq_true] at h
    rcases h with ⟨hnone, hm⟩ | hall
    · rcases Relation.ReflTransGen.cases_head hx with rfl | ⟨d, ⟨q, hq, -⟩, -⟩
      · exact hm
      · exact absurd (hnone ▸ hq) List.not_mem_nil
    · intro hlinking
      obtain ⟨r, hr, -⟩ := Option.map_eq_some_iff.1 hlinking
      have hlt := Store.index_lt_of_source (Option.isSome_of_mem hr)
      exact absurd hlinking (by simpa using hall x.index (List.mem_range.2 hlt))
  · obtain ⟨call, outcome⟩ := a
    obtain rfl : outcome = _ := ha
    simpa [linksAside, hm] using h

/-- Goes on for a number of steps. The host answers what it is asked at once, from the modules that are
named on the stage. -/
def serve : ℕ → Machine → Machine
  | 0, M => M
  | n + 1, M =>
    serve n <|
      match M.question? with
      | some (.load call) =>
        M.answer (((M.store.named? call.request.specifier).map fun d ↦ ⟨call, .ok d⟩).toList)
      | some (.answer _) => M.answer []
      | none => M.step

end Machine

/-- What comes of a call when the host answers at once, if all that happens passes a check. -/
theorem Turns.serve {P : Machine → Machine → Prop} {check : Machine → Bool} {a : Act} {M : Machine}
    {n : ℕ} (hcheck : ∀ M M', check M = true → P M M')
    (h : ∀ i < n, check (M.serve i) = true) : Turns P (.busy a M) (.busy a (M.serve n)) := by
  induction n generalizing M with
  | zero => exact .refl
  | succ n ih =>
    refine .head ?_ (ih fun i hi ↦ h (i + 1) (Nat.succ_lt_succ hi))
    split
    · next call hq => exact .answer _ hq
    · next call hq => exact .answer _ hq
    · exact .step (hcheck _ _ (h 0 n.succ_pos))

/-- A call of which something comes when the host answers at once, if all that happens passes a check. -/
theorem Turns.served {P : Machine → Machine → Prop} {check : Machine → Bool} {st : State} {s : Store}
    {a b : Act} {M : Machine} {n : ℕ} (hturns : Turns P st (.idle s))
    (hcheck : ∀ M M', check M = true → P M M') (hbegin : a.begin s = some (.busy b M))
    (h : ∀ i < n, check (M.serve i) = true) (hresult : (M.serve n).result?.isSome) :
    Turns P st (.idle (M.serve n).store) := by
  obtain ⟨r, hr⟩ := Option.isSome_iff_exists.1 hresult
  exact ((hturns.tail (.call a hbegin)).trans (Turns.serve hcheck h)).tail (.finish hr)

/-- A module with the declarations that takes steps when its environment is set up, and has not been loaded. -/
def Module.written (ds : List Syntax.Declaration) (setup : List Step) : Module where
  content := .sourceText { entries := Entries.ofBody true (ds.map .declaration), setup := setup }

/-- In such modules, if no request has attributes, nothing has happened yet. -/
theorem Store.unread_of_written {l : List (List Syntax.Declaration × List Step)} {s : Store}
    (hs : s.modules = (l.map fun p ↦ Module.written p.1 p.2).toArray) (hl : s.loadings = #[])
    (hp : s.promises = #[]) (hj : s.jobs = [])
    (hplain : ∀ p ∈ l, ∀ d ∈ p.1, ∀ q, Entries.requestOf? d = some q → q.attributes = []) :
    s.Unread ∧ s.Fresh ∧ ∀ m, s.environment? m = none := by
  have hmodule : ∀ {m : ModuleId} {r : Module}, s.module? m = some r →
      ∃ p ∈ l, r = .written p.1 p.2 := fun {m r} hr ↦ by
    simp only [Store.module?, hs, List.getElem?_toArray, List.getElem?_map,
      Option.map_eq_some_iff] at hr
    obtain ⟨p, hp, rfl⟩ := hr
    exact ⟨p, List.mem_of_getElem? hp, rfl⟩
  have hsource : ∀ {m r}, s.source? m = some r → ∃ p ∈ l,
      r = { entries := Entries.ofBody true (p.1.map .declaration), setup := p.2 } := fun {m r} hr ↦ by
    unfold Store.source? at hr
    split at hr
    · next hm =>
      obtain ⟨p, hp, heq⟩ := hmodule hm
      cases heq
      exact ⟨p, hp, (Option.some.inj hr).symm⟩
    · cases hr
  refine ⟨⟨fun m r hr ↦ ?_, fun m r hr ↦ ?_, hl, hp, hj⟩,
    ⟨fun m r hr ↦ ?_, fun m r hr ↦ ?_, hp, hj⟩, fun m ↦ ?_⟩
  · obtain ⟨p, -, rfl⟩ := hsource hr
    exact ⟨rfl, rfl, rfl, rfl⟩
  · obtain ⟨p, hp, rfl⟩ := hsource hr
    refine ⟨_, _, rfl, fun d hd q hq ↦ ?_⟩
    obtain ⟨d', hd', heq⟩ := List.mem_filterMap.1 hd
    obtain ⟨d'', hd'', rfl⟩ := List.mem_map.1 hd'
    obtain rfl := Option.some.inj heq
    simp [Request.Distinct, hplain p hp d'' hd'' q hq]
  · obtain ⟨p, -, rfl⟩ := hsource hr
    exact ⟨.inl rfl, rfl, rfl, rfl, rfl, rfl, rfl⟩
  · unfold Store.synthetic? at hr
    split at hr
    · next hm =>
      obtain ⟨p, -, heq⟩ := hmodule hm
      cases heq
    · cases hr
  · rcases hr : s.source? m with _ | r
    · simp [environment?, hr]
    · obtain ⟨p, -, rfl⟩ := hsource hr
      simp [environment?, hr]

/-- A module that imports modules of the given names, and takes steps when its environment is set
up. -/
def Module.preparing (names : List String) (setup : List Step) : Module where
  content := .sourceText
    { entries := Entries.ofBody true
        (names.map fun name ↦ .declaration (.imports [] { specifier := name }))
      setup := setup }

theorem Store.unread_of_preparing {l : List (List String × List Step)} {s : Store}
    (hs : s.modules = (l.map fun p ↦ Module.preparing p.1 p.2).toArray) (hl : s.loadings = #[])
    (hp : s.promises = #[]) (hj : s.jobs = []) : s.Unread ∧ s.Fresh := by
  have hwritten : s.modules = ((l.map fun p ↦ (p.1.map fun name ↦
      Syntax.Declaration.imports [] { specifier := name }, p.2)).map fun p ↦
        Module.written p.1 p.2).toArray := by
    rw [hs, List.map_map]
    refine congrArg List.toArray (List.map_congr_left fun p _ ↦ ?_)
    simp [Module.preparing, Module.written, Function.comp_def]
  have hplain : ∀ p ∈ l.map fun p ↦ (p.1.map fun name ↦ Syntax.Declaration.imports []
      { specifier := name }, p.2), ∀ d ∈ p.1, ∀ q, Entries.requestOf? d = some q → q.attributes = [] := by
    intro p hp d hd q hq
    obtain ⟨p', -, rfl⟩ := List.mem_map.1 hp
    obtain ⟨name, -, rfl⟩ := List.mem_map.1 hd
    rw [← Option.some.inj hq]
  obtain ⟨hunread, hfresh, -⟩ := unread_of_written hwritten hl hp hj hplain
  exact ⟨hunread, hfresh⟩

/-- The body of the second module has the third one linked while its environment is set up. The first
one requests both. -/
def preparedGraph : Store where
  modules := #[.preparing ["inner", "side"] [], .preparing [] [.link "side"], .preparing [] []]
  stage := { modules := [("inner", ⟨1⟩), ("side", ⟨2⟩)] }

/-- The third module is being linked, in the course of the linking of the other two. -/
theorem linked_modules_request_linked_ones_preparedGraph :
    preparedGraph.Unread ∧ preparedGraph.Fresh ∧
    ∃ s M, Turns Machine.LinksApart (.idle preparedGraph) (.idle s) ∧
      Turns Machine.LinksApart (.idle preparedGraph) (.busy (.link ⟨0⟩) M) ∧
      M.linkWalks.map LinkWalk.stack = [[⟨2⟩], [⟨1⟩, ⟨0⟩]] ∧ M.store.status? ⟨2⟩ = some .linking ∧
      ∀ m r, M.store.source? m = some r → .linked ≤ r.status →
        ∀ q ∈ r.entries.requests, ∃ d, M.store.imported? m q = some d ∧
          ∀ r', M.store.source? d = some r' → .linked ≤ r'.status := by
  have hcheck := Machine.linksApart_of_linksAside
  obtain ⟨hunread, hfresh⟩ := Store.unread_of_preparing (s := preparedGraph)
    (l := [(["inner", "side"], []), ([], [.link "side"]), ([], [])]) rfl rfl rfl rfl
  have hloaded : Turns Machine.LinksApart (.idle preparedGraph) _ :=
    Turns.served (a := .load ⟨0⟩ none) (n := 20) .refl hcheck rfl (by decide +kernel) (by decide +kernel)
  have hlinking := (hloaded.tail (.call (.link ⟨0⟩) rfl)).trans
    (Turns.serve (n := 6) hcheck (by decide +kernel))
  exact ⟨hunread, hfresh, _, _, hloaded, hlinking, by decide +kernel, by decide +kernel,
    (linked_modules_request_linked_ones hunread hfresh hlinking).1⟩

/-- The body of the second module has the third one linked, which requests the first one. That is being
linked then, and fails later. -/
def entangledGraph : Store where
  modules := #[.preparing ["inner", "side"] [.throw .error "outer failed"],
    .preparing [] [.link "side"], .preparing ["outer"] []]
  stage := { modules := [("outer", ⟨0⟩), ("inner", ⟨1⟩), ("side", ⟨2⟩)] }

/-- Linking may come to a module that is being linked further up, and then a linked module is left that
requests one which is not. -/
theorem entangledGraph_linked_requests_unlinked :
    entangledGraph.Unread ∧ entangledGraph.Fresh ∧
    ∃ s, Turns Machine.Fair (.idle entangledGraph) (.idle s) ∧ s.status? ⟨2⟩ = some .linked ∧
      s.Requires ⟨2⟩ ⟨0⟩ ∧ s.status? ⟨0⟩ = some .unlinked := by
  have hcheck := Machine.fair_of_fairNow
  obtain ⟨hunread, hfresh⟩ := Store.unread_of_preparing (s := entangledGraph)
    (l := [(["inner", "side"], [.throw .error "outer failed"]), ([], [.link "side"]), (["outer"], [])])
    rfl rfl rfl rfl
  have hloaded : Turns Machine.Fair (.idle entangledGraph) _ :=
    Turns.served (a := .load ⟨0⟩ none) (n := 30) .refl hcheck rfl (by decide +kernel) (by decide +kernel)
  have hlinked := Turns.served (a := .link ⟨0⟩) (n := 20) hloaded hcheck rfl (by decide +kernel)
    (by decide +kernel)
  exact ⟨hunread, hfresh, _, hlinked, by decide +kernel,
    ⟨{ specifier := "outer" }, by decide +kernel, by decide +kernel⟩, by decide +kernel⟩

end EcmaModules
