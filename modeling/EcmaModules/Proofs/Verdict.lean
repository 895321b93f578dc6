import EcmaModules.Proofs.Calling
import EcmaModules.Proofs.Postorder

/-!
# What comes of linking

Linking goes through the modules that are not linked yet depth first, and looks for something to complain of
in each of them when it is through with the modules that this one requests. So the call fails at the first
module in that order in which there is something wrong (`Store.Links.verdict`). The order is that of the
plain traversal (`EcmaModules.postorder`), which knows nothing of stacks and components.

Whether there is something wrong in a module depends neither on how far linking has come nor on what was
linked before. Hence linking succeeds if and only if all names are resolved (`linking_succeeds_iff_resolved`).

## Which modules are linked

The walk is through with the modules at the beginning of the order. These are linked by then, or still on the
stack, together with those on the path. Nothing else gets another status, but for what bodies have evaluated
meanwhile.
-/

namespace EcmaModules

variable {s s' s₀ : Store} {w w' : LinkWalk} {m d x root : ModuleId}
  {β : ModuleId → Option ThrownError} {calm : Prop}

namespace Store

/-! ## The order of linking -/

/-- The modules that were given for the requests of a module, in order. -/
def requested (s : Store) (m : ModuleId) : List ModuleId := (s.entries m).requests.filterMap (s.imported? m)

theorem mem_requested : d ∈ s.requested m ↔ s.Requires m d := List.mem_filterMap

/-- The modules that were loaded, and are not linked. -/
def unlinked (s : Store) : Finset ModuleId :=
  ((List.range s.modules.size).map ModuleId.mk).toFinset.filter fun x ↦ s.status? x = some .unlinked

theorem mem_unlinked : x ∈ s.unlinked ↔ s.status? x = some .unlinked := by
  rw [unlinked, Finset.mem_filter, List.mem_toFinset, List.mem_map]
  refine and_iff_right_of_imp fun hx ↦ ?_
  obtain ⟨r, hr, -⟩ := Option.map_eq_some_iff.1 hx
  exact ⟨x.index, List.mem_range.2 (index_lt_of_source (Option.isSome_of_mem hr)), rfl⟩

/-- The modules that a call has to link, in the order in which it is through with them. -/
def linkOrder (s : Store) (root : ModuleId) : List ModuleId := postorder s.requested s.unlinked [root]

/-- The module leads to all that a call for it has to link. -/
theorem leads_of_mem_linkOrder (h : x ∈ s.linkOrder root) : Relation.ReflTransGen s.Requires root x := by
  classical
  have hinside : ∀ y ∈ s.linkOrder root,
      y ∈ s.unlinked.filter fun y ↦ Relation.ReflTransGen s.Requires root y := by
    refine postorder_subset_of_closed (fun y hy d hd hfresh ↦ ?_) (fun d hd hfresh ↦ ?_)
    · exact Finset.mem_filter.2 ⟨hfresh, (Finset.mem_filter.1 hy).2.tail (mem_requested.1 hd)⟩
    · exact Finset.mem_filter.2 ⟨hfresh, List.mem_singleton.1 hd ▸ .refl⟩
  exact (Finset.mem_filter.1 (hinside x h)).2

/-- The module of a frame, with those that the walk has not come to from there. -/
def ahead (s : Store) (f : LinkFrame) : ModuleId × List ModuleId :=
  (f.module, f.requests.filterMap (s.imported? f.module))

/-! ## The status of modules -/

/-- How far a call has come, as far as the status of modules goes. -/
structure Progress (calm : Prop) (s₀ : Store) (x : Store × LinkWalk) : Prop where
  /-- Modules that are linked by now were so before, or were not linked. -/
  linked : ∀ d, x.1.Linked d → s₀.Linked d ∨ s₀.status? d = some .unlinked
  stack : ∀ d ∈ x.2.stack, s₀.status? d = some .unlinked
  spares : ∀ d, ¬x.1.Linked d → d ∉ x.2.stack → x.1.status? d = s₀.status? d
  rises : ∀ d status, s₀.status? d = some status → .linked ≤ status →
    ∃ status', x.1.status? d = some status' ∧ status ≤ status'
  rests : calm → ∀ d, x.1.Linked d → x.1.status? d = s₀.status? d ∨
    s₀.status? d = some .unlinked ∧ x.1.status? d = some .linked

namespace Progress

theorem refl (hnone : w.stack = []) (s : Store) : s.Progress calm (s, w) :=
  ⟨fun _ ↦ .inl, by rintro d hd; exact absurd (hnone ▸ hd) List.not_mem_nil, fun _ _ _ ↦ rfl,
    fun _ status hs _ ↦ ⟨status, hs, le_rfl⟩, fun _ _ _ ↦ .inl rfl⟩

/-- No status changes. -/
theorem same (h : s₀.Progress calm (s, w)) (hstatus : ∀ x, s'.status? x = s.status? x)
    (hstack : w'.stack = w.stack) : s₀.Progress calm (s', w') where
  linked d hd := h.linked d (hd.congr (hstatus d).symm)
  stack d hd := h.stack d (hstack ▸ hd)
  spares d hd hout := (hstatus d).trans <|
    h.spares d (fun hl ↦ hd (hl.congr (hstatus d))) fun hmem ↦ hout (hstack ▸ hmem)
  rises d status hs hle := by
    rw [hstatus]
    exact h.rises d status hs hle
  rests hcalm d hd := by
    rw [hstatus]
    exact h.rests hcalm d (hd.congr (hstatus d).symm)

/-- A module is entered. -/
theorem enter (h : s₀.Progress calm (s, w)) (hlinking : ∀ x ∈ w.stack, s.status? x = some .linking)
    (hd : s.status? d = some .unlinked) (hstack : w'.stack = d :: w.stack) (i : ℕ) :
    s₀.Progress calm ((s.setStatus d .linking).setDfsIndex d i, w') := by
  have hne : ∀ x, s.Linked x → x ≠ d := by
    rintro x hx rfl
    exact absurd (linked_iff.1 hx _ hd) (by decide)
  have hsame : ∀ x, x ≠ d → ((s.setStatus d .linking).setDfsIndex d i).status? x = s.status? x :=
    fun x hx ↦ LinkWalk.status?_enter_of_ne hx i
  refine ⟨fun x hx ↦ h.linked x ((LinkWalk.linked_enter hd i x).1 hx), ?_, fun x hx hout ↦ ?_,
    fun x status hs hle ↦ ?_, fun hcalm x hx ↦ ?_⟩
  · refine hstack ▸ List.forall_mem_cons.2 ⟨?_, h.stack⟩
    refine (h.spares d (fun hl ↦ hne d hl rfl) fun hmem ↦ ?_).symm.trans hd
    exact absurd (hd.symm.trans (hlinking d hmem)) (by simp)
  · rw [hstack, List.mem_cons, not_or] at hout
    rw [hsame x hout.1]
    exact h.spares x (fun hl ↦ hx ((LinkWalk.linked_enter hd i x).2 hl)) hout.2
  · obtain ⟨status', hs', hle'⟩ := h.rises x status hs hle
    rw [hsame x fun heq ↦ ?_]
    · exact ⟨status', hs', hle'⟩
    · obtain rfl := Option.some.inj (hs'.symm.trans (heq ▸ hd))
      exact absurd (hle.trans hle') (by decide)
  · have hx := (LinkWalk.linked_enter hd i x).1 hx
    rw [hsame x (hne x hx)]
    exact h.rests hcalm x hx

theorem travels {y : Store × LinkWalk} (h : s₀.Progress calm (s, w)) (hw : w.Alone s)
    (ht : s.Travels β calm w y) : s₀.Progress calm y := by
  have hlinking : ∀ x ∈ w.stack, s.status? x = some .linking := hw.linkage.linking w.tour List.mem_cons_self
  cases ht with
  | @beside s' hidles =>
    refine ⟨fun d hd ↦ h.linked d ((hidles.linked d).1 hd), h.stack, fun d hd hout ↦ ?_,
      fun d status hs hle ↦ ?_, fun hcalm d hd ↦ ?_⟩
    · have hd := mt (hidles.linked d).2 hd
      exact (hidles.spares d hd).trans (h.spares d hd hout)
    · obtain ⟨status', hs', hle'⟩ := h.rises d status hs hle
      obtain ⟨r, hr, rfl⟩ := Option.map_eq_some_iff.1 hs'
      obtain ⟨r', hr', hascends⟩ := hidles.ascends.after hr
      exact ⟨r'.status, Option.map_eq_some_iff.2 ⟨r', hr', rfl⟩, hle'.trans hascends.rises⟩
    · show s'.status? d = _ ∨ _ ∧ s'.status? d = _
      rw [hidles.rests hcalm d]
      exact h.rests hcalm d ((hidles.linked d).1 hd)
  | @environment s' m rest _ hinit =>
    have hstatus := (s.initializeEnvironment_furnishing m).level.status
    rw [hinit] at hstatus
    exact h.same hstatus rfl
  | absent _ _ => exact h.same (fun _ ↦ rfl) rfl
  | enter _ _ hd => exact h.enter hlinking hd rfl _
  | @meet m d q requests rest _ _ _ => exact h.same (LinkWalk.status?_leave s m d) rfl
  | @conclude m rest hframes _ =>
    have hconcludes := hw.concludes hframes
    have hstatus := hconcludes.status
    generalize LinkWalk.conclude s { w with frames := rest } m = y at hconcludes hstatus
    have hpopped : ∀ x, x ∈ w.stack → x ∉ y.2.stack → y.1.Linked x := fun x hx hout ↦
      linked_iff.2 fun status hs ↦ by
        rw [hstatus, if_pos ⟨hx, hout⟩] at hs
        exact (Option.some.inj hs).le
    refine ⟨fun x hx ↦ ?_, fun x hx ↦ h.stack x (hconcludes.subset hx), fun x hx hout ↦ ?_,
      fun x status hs hle ↦ ?_, fun hcalm x hx ↦ ?_⟩
    · by_cases hmem : x ∈ w.stack ∧ x ∉ y.2.stack
      · exact .inr (h.stack x hmem.1)
      · exact h.linked x (hx.congr (by rw [hstatus, if_neg hmem]))
    · have hmem : x ∉ w.stack := fun hmem ↦ hx (hpopped x hmem hout)
      have hsame : y.1.status? x = s.status? x := by rw [hstatus, if_neg fun h ↦ hmem h.1]
      rw [hsame]
      exact h.spares x (fun hl ↦ hx (hl.congr hsame)) hmem
    · obtain ⟨status', hs', hle'⟩ := h.rises x status hs hle
      have hmem : x ∉ w.stack := fun hmem ↦ by
        obtain rfl := Option.some.inj (hs'.symm.trans (hlinking x hmem))
        exact absurd (hle.trans hle') (by decide)
      rw [hstatus, if_neg fun h ↦ hmem h.1]
      exact ⟨status', hs', hle'⟩
    · by_cases hmem : x ∈ w.stack ∧ x ∉ y.2.stack
      · exact .inr ⟨h.stack x hmem.1, by rw [hstatus, if_pos hmem]⟩
      · have hsame : y.1.status? x = s.status? x := by rw [hstatus, if_neg hmem]
        rw [hsame]
        exact h.rests hcalm x (hx.congr hsame.symm)

end Progress

theorem Starts.progress {x : Store × LinkWalk} (h : s.Starts root x) : s.Progress calm x := by
  cases h with
  | enter hs => exact (Progress.refl (w := {}) rfl s).enter (by rintro _ ⟨⟩) hs rfl 0
  | linked _ => exact .refl rfl s

/-! ### What is left to be linked -/

theorem unlinked_congr (h : ∀ x, s'.status? x = s.status? x) : s'.unlinked = s.unlinked := by
  ext x
  rw [mem_unlinked, mem_unlinked, h]

theorem unlinked_enter (hd : s.status? d = some .unlinked) (i : ℕ) :
    ((s.setStatus d .linking).setDfsIndex d i).unlinked = s.unlinked.erase d := by
  ext x
  rw [Finset.mem_erase, mem_unlinked, mem_unlinked]
  by_cases hx : x = d
  · subst hx
    simp [LinkWalk.status?_enter hd i]
  · simp [LinkWalk.status?_enter_of_ne hx i, hx]

theorem Idles.unlinked (h : s.Idles calm s') : s'.unlinked = s.unlinked := by
  ext x
  rw [mem_unlinked, mem_unlinked]
  by_cases hx : s.Linked x
  · exact iff_of_false (fun hs ↦ absurd (linked_iff.1 ((h.linked x).2 hx) _ hs) (by decide)) fun hs ↦
      absurd (linked_iff.1 hx _ hs) (by decide)
  · rw [h.spares x hx]

theorem Concludes.unlinked {w' : LinkWalk} (h : LinkWalk.Concludes s s' w w')
    (hlinking : ∀ x ∈ w.stack, s.status? x = some .linking) : s'.unlinked = s.unlinked := by
  ext x
  rw [mem_unlinked, mem_unlinked, h.status]
  split
  · next hx => simp [hlinking x hx.1]
  · rfl

/-! ## Where a call is in the order -/

/-- What a walk is through with comes first in the order, then what it is going to be through with. -/
structure InOrder (β : ModuleId → Option ThrownError) (s₀ : Store) (root : ModuleId) (done : List ModuleId)
    (x : Store × LinkWalk) : Prop where
  order : s₀.linkOrder root = done ++ remaining s₀.requested x.1.unlinked (x.2.frames.map s₀.ahead)
  passed : ∀ d ∈ done, s₀.verdict? β d = none
  /-- The walk is through with what it has linked, and with what is on its stack and not on its path. -/
  settled : ∀ d, x.1.Linked d → s₀.Linked d ∨ d ∈ done
  reached : ∀ d ∈ done, x.1.Linked d ∨ d ∈ x.2.stack
  stacked : ∀ d ∈ x.2.stack, d ∈ done ∨ ∃ f ∈ x.2.frames, f.module = d

/-- The module, and with it all that it leads to, was loaded. -/
structure Linkable (s₀ : Store) (root : ModuleId) : Prop where
  filed : s₀.Filed
  rounded : s₀.Rounded
  root : s₀.Old root

theorem Linkable.old (h : s₀.Linkable root) (hx : Relation.ReflTransGen s₀.Requires root x) : s₀.Old x :=
  h.rounded.old_of_leads h.root hx

theorem Linkable.verdict? (h : s₀.Linkable root) (hs : s₀.Echoes s)
    (hx : Relation.ReflTransGen s₀.Requires root x) : s.verdict? β x = s₀.verdict? β x := by
  rw [Store.verdict?, Store.verdict?, hs.complaint? h.filed h.rounded (h.old hx)]

/-- What the frames of a walk have ahead of them is what the modules request that are their own. -/
theorem ahead_cons_of_some {q : Request} {requests : List Request} (h : s.imported? m q = some d) :
    s.ahead ⟨m, q :: requests⟩ = (m, d :: (s.ahead ⟨m, requests⟩).2) := by
  rw [ahead, ahead, List.filterMap_cons_some h]

theorem Starts.inOrder {x : Store × LinkWalk} (h : s.Starts root x) : s.InOrder β root [] x := by
  cases h with
  | enter hs =>
    refine ⟨?_, by rintro _ ⟨⟩, fun d hd ↦ .inl ((LinkWalk.linked_enter hs 0 d).1 hd), by rintro _ ⟨⟩, ?_⟩
    · have hroot := mem_unlinked.2 hs
      show s.linkOrder root = remaining s.requested _ [(root, s.requested root)]
      rw [unlinked_enter hs, linkOrder, postorder_cons_of_mem hroot, remaining, remaining, postorder_nil]
    · exact fun d hd ↦ .inr ⟨_, List.mem_cons_self, (List.mem_singleton.1 hd).symm⟩
  | linked hs =>
    refine ⟨?_, by rintro _ ⟨⟩, fun d ↦ .inl, by rintro _ ⟨⟩, by rintro _ ⟨⟩⟩
    have hroot : root ∉ s.unlinked := fun hmem ↦
      absurd (linked_iff.1 hs _ (mem_unlinked.1 hmem)) (by decide)
    rw [linkOrder, postorder_cons_of_notMem hroot, postorder_nil]
    rfl

namespace InOrder

variable {done : List ModuleId}

/-- The walk has come no further in the order. -/
theorem same (h : s₀.InOrder β root done (s, w)) (hlinked : ∀ x, s'.Linked x ↔ s.Linked x)
    (hstack : w'.stack = w.stack)
    (hframes : ∀ f ∈ w.frames, ∃ f' ∈ w'.frames, f'.module = f.module)
    (hremaining : remaining s₀.requested s'.unlinked (w'.frames.map s₀.ahead) =
      remaining s₀.requested s.unlinked (w.frames.map s₀.ahead)) : s₀.InOrder β root done (s', w') where
  order := h.order.trans (by rw [hremaining])
  passed := h.passed
  settled d hd := h.settled d ((hlinked d).1 hd)
  reached d hd := (h.reached d hd).imp (hlinked d).2 (hstack ▸ ·)
  stacked d hd := (h.stacked d (hstack ▸ hd)).imp_right fun ⟨f, hf, hd⟩ ↦
    let ⟨f', hf', heq⟩ := hframes f hf
    ⟨f', hf', heq.trans hd⟩

/-- Each step of a walk leaves what has been gone through, or adds the module that the walk is through with. -/
theorem goes {x y : Store × LinkWalk} (h : s₀.InOrder β root done x) (he : s₀.Explores root x)
    (hs : s₀.Linkable root) (hgoes : s₀.Goes β calm x y) :
    ∃ more, s₀.InOrder β root (done ++ more) y := by
  obtain ⟨s, w⟩ := x
  obtain ⟨halone, hechoes, htravels⟩ := hgoes
  have htidy := halone.linking.tidy w List.mem_cons_self
  have hlinking : ∀ x ∈ w.stack, s.status? x = some .linking := halone.linkage.linking w.tour List.mem_cons_self
  have hleads : ∀ f ∈ w.frames, Relation.ReflTransGen s₀.Requires root f.module := fun f hf ↦
    he.leads _ (htidy.mem hf)
  have hframe : ∀ {m : ModuleId} {requests : List Request} {rest : List LinkFrame} {q : Request},
      w.frames = ⟨m, q :: requests⟩ :: rest → ∀ f ∈ w.frames,
        ∃ f' ∈ (⟨m, requests⟩ :: rest : List LinkFrame), f'.module = f.module := by
    intro m requests rest q hframes f hf
    rcases List.mem_cons.1 (hframes ▸ hf) with rfl | hf
    · exact ⟨_, List.mem_cons_self, rfl⟩
    · exact ⟨f, List.mem_cons_of_mem _ hf, rfl⟩
  -- what the walk comes to was given for the request from the beginning
  have hgiven : ∀ {m : ModuleId} {q : Request} {requests : List Request} {rest : List LinkFrame},
      w.frames = ⟨m, q :: requests⟩ :: rest → ∃ d, s₀.imported? m q = some d ∧ s.imported? m q = some d := by
    intro m q requests rest hframes
    have hasked := htidy.asked hframes
    rw [hechoes.entries m] at hasked
    obtain ⟨d, hd, -⟩ := hs.rounded m (hs.old (hleads ⟨m, _⟩ (hframes ▸ List.mem_cons_self))) q hasked
    exact ⟨d, hd, hechoes.grows m q d hd⟩
  have hstay : ∀ {y : Store × LinkWalk}, s₀.InOrder β root done y →
      ∃ more, s₀.InOrder β root (done ++ more) y := fun h ↦ ⟨[], by rwa [List.append_nil]⟩
  cases htravels with
  | beside hidles =>
    refine hstay (h.same hidles.linked rfl (fun f hf ↦ ⟨f, hf, rfl⟩) ?_)
    rw [hidles.unlinked]
  | @environment s' m rest _ hinit =>
    have hstatus := (s.initializeEnvironment_furnishing m).level.status
    rw [hinit] at hstatus
    refine hstay (h.same (fun x ↦ ?_) rfl (fun f hf ↦ ⟨f, hf, rfl⟩) ?_)
    · exact ⟨fun hx ↦ hx.congr (hstatus x).symm, fun hx ↦ hx.congr (hstatus x)⟩
    · rw [unlinked_congr hstatus]
  | absent hframes hq =>
    obtain ⟨d, -, hd⟩ := hgiven hframes
    exact absurd (hq.symm.trans hd) (by simp)
  | @enter m d q requests rest hframes hq hd =>
    obtain ⟨d', hd₀, hd'⟩ := hgiven hframes
    obtain rfl := Option.some.inj (hq.symm.trans hd')
    refine hstay ⟨?_, h.passed, fun x hx ↦ h.settled x ((LinkWalk.linked_enter hd w.index x).1 hx),
      fun x hx ↦ (h.reached x hx).imp (LinkWalk.linked_enter hd w.index x).2 (List.mem_cons_of_mem d), ?_⟩
    · have hahead : s₀.ahead ⟨d, (s.entries d).requests⟩ = (d, s₀.requested d) := by
        rw [ahead, hechoes.entries d]
        rfl
      have horder := h.order
      rw [hframes, List.map_cons, ahead_cons_of_some hd₀, ← remaining_enter (mem_unlinked.2 hd)] at horder
      rw [List.map_cons, hahead, unlinked_enter hd]
      exact horder
    · refine List.forall_mem_cons.2 ⟨.inr ⟨_, List.mem_cons_self, rfl⟩, fun x hx ↦ ?_⟩
      refine (h.stacked x hx).imp_right fun ⟨f, hf, heq⟩ ↦ ?_
      obtain ⟨f', hf', heq'⟩ := hframe hframes f hf
      exact ⟨f', List.mem_cons_of_mem _ hf', heq'.trans heq⟩
  | @meet m d q requests rest hframes hq hd =>
    obtain ⟨d', hd₀, hd'⟩ := hgiven hframes
    obtain rfl := Option.some.inj (hq.symm.trans hd')
    have hstatus := LinkWalk.status?_leave s m d
    refine hstay (h.same (fun x ↦ ?_) rfl (hframe hframes) ?_)
    · exact ⟨fun hx ↦ hx.congr (hstatus x).symm, fun hx ↦ hx.congr (hstatus x)⟩
    · rw [unlinked_congr hstatus, hframes, List.map_cons, List.map_cons, ahead_cons_of_some hd₀,
        ← remaining_skip (mt mem_unlinked.1 hd)]
      rfl
  | @conclude m rest hframes hverdict =>
    have hmem : (⟨m, []⟩ : LinkFrame) ∈ w.frames := hframes ▸ List.mem_cons_self
    have hconcludes := halone.concludes hframes
    have hunlinked := Concludes.unlinked hconcludes hlinking
    have hkept := LinkWalk.frames_conclude s { w with frames := rest } m
    generalize LinkWalk.conclude s { w with frames := rest } m = y at hconcludes hunlinked hkept
    have hlinked : ∀ x, x ∈ w.stack → x ∉ y.2.stack → y.1.Linked x := fun x hx hout ↦
      linked_iff.2 fun status hstatus ↦ by
        rw [hconcludes.status, if_pos ⟨hx, hout⟩] at hstatus
        exact (Option.some.inj hstatus).le
    -- all that is on the stack and not on the path any more has been gone through
    have hthrough : ∀ x ∈ w.stack, x ∈ done ++ [m] ∨ ∃ f ∈ rest, f.module = x := by
      intro x hx
      rcases h.stacked x hx with hx | ⟨f, hf, rfl⟩
      · exact .inl (List.mem_append_left _ hx)
      · rcases List.mem_cons.1 (hframes ▸ hf) with rfl | hf
        · exact .inl (List.mem_append_right _ List.mem_cons_self)
        · exact .inr ⟨f, hf, rfl⟩
    refine ⟨[m], ?_, fun x hx ↦ ?_, fun x hx ↦ ?_, fun x hx ↦ ?_, fun x hx ↦ ?_⟩
    · have horder := h.order
      have hahead : s₀.ahead ⟨m, []⟩ = (m, []) := rfl
      rw [hframes, List.map_cons, hahead, remaining_through] at horder
      rw [hunlinked, hkept, horder, List.append_assoc]
      rfl
    · rcases List.mem_append.1 hx with hx | hx
      · exact h.passed x hx
      · rw [List.mem_singleton.1 hx, ← hs.verdict? hechoes (hleads _ hmem), hverdict]
    · by_cases hpopped : x ∈ w.stack ∧ x ∉ y.2.stack
      · refine .inr ((hthrough x hpopped.1).resolve_right fun ⟨f, hf, heq⟩ ↦ hpopped.2 ?_)
        exact heq ▸ hconcludes.tidy.mem (hkept ▸ hf)
      · exact (h.settled x (hx.congr (by rw [hconcludes.status, if_neg hpopped]))).imp_right
          (List.mem_append_left _)
    · have hcame : s.Linked x ∨ x ∈ w.stack := by
        rcases List.mem_append.1 hx with hx | hx
        · exact h.reached x hx
        · exact .inr (List.mem_singleton.1 hx ▸ htidy.mem hmem)
      by_cases hstays : x ∈ y.2.stack
      · exact .inr hstays
      · refine .inl (hcame.elim (fun hl ↦ ?_) fun hx ↦ hlinked x hx hstays)
        by_cases hx : x ∈ w.stack
        · exact hlinked x hx hstays
        · exact hl.congr (by rw [hconcludes.status, if_neg fun h ↦ hx h.1])
    · rw [hkept]
      exact hthrough x (hconcludes.subset hx)

end InOrder

/-- How far a call has come in a graph that was loaded before. -/
structure GoesThrough (β : ModuleId → Option ThrownError) (calm : Prop) (s₀ : Store) (root : ModuleId)
    (done : List ModuleId) (x : Store × LinkWalk) : Prop where
  inOrder : s₀.InOrder β root done x
  explores : s₀.Explores root x
  progress : s₀.Progress calm x

theorem GoesThrough.course {x y : Store × LinkWalk} (hs : s₀.Linkable root) (hstarts : s₀.Starts root x)
    (hcourse : Relation.ReflTransGen (s₀.Goes β calm) x y) : ∃ done, s₀.GoesThrough β calm root done y := by
  induction hcourse with
  | refl => exact ⟨[], hstarts.inOrder, hstarts.explores, hstarts.progress⟩
  | tail _ hgoes ih =>
    obtain ⟨done, hdone⟩ := ih
    obtain ⟨more, hmore⟩ := hdone.inOrder.goes hdone.explores hs hgoes
    exact ⟨done ++ more, hmore, hdone.explores.goes hs.rounded hs.root hgoes,
      hdone.progress.travels hgoes.alone hgoes.travels⟩

/-- A call that is not refused goes through the modules in order, and ends. -/
theorem Links.goesThrough {out : Store × Result} (h : s₀.Links β calm root out) (hs : s₀.Linkable root) :
    ∃ s w done, s₀.GoesThrough β calm root done (s, w) ∧ w.Alone s ∧ s₀.Echoes s ∧ s.Ends β w out := by
  obtain ⟨x, ⟨s, w⟩, hstarts, hcourse, halone, hechoes, hends⟩ := h.course
  obtain ⟨done, hdone⟩ := GoesThrough.course hs hstarts hcourse
  exact ⟨s, w, done, hdone, halone, hechoes, hends⟩

/-! ## When linking succeeds -/

/-- Each name that the module re-exports or imports stands for a single thing. -/
structure NamesResolve (s : Store) (m : ModuleId) : Prop where
  reexports : ∀ e ∈ (s.entries m).indirectExports, (s.resolveExport m e.exported).isBinding = true
  imports : ∀ i ∈ (s.entries m).imports, ∃ target, s.imported? m i.request = some target ∧
    ∀ name, i.imported = some name → (s.resolveExport target name).isBinding = true

theorem namesResolve_iff_all : s.NamesResolve m ↔
    ((s.entries m).indirectExports.all fun e ↦ (s.resolveExport m e.exported).isBinding) = true ∧
      ((s.entries m).imports.all fun i ↦ (s.imported? m i.request).any fun target ↦
        i.imported.all fun name ↦ (s.resolveExport target name).isBinding) = true := by
  simp only [List.all_eq_true, Option.any_eq_true, Option.all_eq_true]
  exact ⟨fun h ↦ ⟨h.reexports, h.imports⟩, fun h ↦ ⟨h.1, h.2⟩⟩

instance : Decidable (s.NamesResolve m) := decidable_of_iff _ namesResolve_iff_all.symm

theorem Linkable.namesResolve_iff (h : s.Linkable root) (hx : Relation.ReflTransGen s.Requires root x) :
    s.NamesResolve x ↔ s.complaint? x = none := by
  rw [complaint?_eq_none_iff]
  refine ⟨fun ⟨hre, him⟩ ↦ ⟨hre, fun i hi target name ht hname ↦ ?_⟩, fun ⟨hre, him⟩ ↦ ⟨hre, fun i hi ↦ ?_⟩⟩
  · obtain ⟨target', ht', hall⟩ := him i hi
    obtain rfl := Option.some.inj (ht.symm.trans ht')
    exact hall name hname
  · obtain ⟨target, ht, -⟩ := h.filed.imported h.rounded (h.old hx) (Entries.request_mem_asked hi)
    exact ⟨target, ht, fun name hname ↦ him i hi target name ht hname⟩

theorem NamesResolve.of_source_eq_none (h : s.source? m = none) : s.NamesResolve m := by
  have hempty : s.entries m = {} := by rw [entries, h]; rfl
  exact ⟨by rw [hempty]; rintro _ ⟨⟩, by rw [hempty]; rintro _ ⟨⟩⟩

theorem error_unlink (s : Store) (stack : List ModuleId) (e : ErrorId) : (s.unlink stack).error e = s.error e := by
  have herrors : (s.unlink stack).errors = s.errors := by
    rw [unlink]
    induction stack generalizing s with
    | nil => rfl
    | cons m stack ih => exact ih (s.setStatus m .unlinked)
  rw [error, herrors, error]

/-- A call that ends well has linked all that the module leads to, and there was nothing to complain of. -/
theorem Links.linked {out : Store × Result} (h : s₀.Links β calm root out) (hs : s₀.Linkable root)
    (hok : out.2.toCompletion = .ok ()) (hx : Relation.ReflTransGen s₀.Requires root x) :
    out.1.Linked x ∧ ((s₀.source? x).isSome → out.1.Bound x) ∧ s₀.complaint? x = none := by
  obtain ⟨s, w, done, hthrough, halone, hechoes, hends⟩ := h.goesThrough hs
  cases hends with
  | done hframes =>
    have hlinked := hthrough.explores.linked halone hframes hechoes hs.rounded hs.root hx
    have hresolved := halone.resolved x hlinked
    refine ⟨hlinked, fun hsource ↦ ?_, ?_⟩
    · obtain ⟨t, ht⟩ := Option.isSome_iff_exists.1 hsource
      obtain ⟨t', ht', -⟩ := source?_of_entries hechoes.isSome hechoes.entries hechoes.exports ht
      exact hresolved.bound (Option.isSome_of_mem ht')
    · rw [← hechoes.complaint? hs.filed hs.rounded (hs.old hx), hresolved.complaint]
  | failed => contradiction

/-- It was through with all that was to be linked. -/
theorem Links.passed {out : Store × Result} (h : s₀.Links β calm root out) (hs : s₀.Linkable root)
    (hok : out.2.toCompletion = .ok ()) : ∀ d ∈ s₀.linkOrder root, s₀.verdict? β d = none := by
  obtain ⟨s, w, done, hthrough, -, -, hends⟩ := h.goesThrough hs
  cases hends with
  | done hframes =>
    rw [hthrough.inOrder.order, hframes, List.map_nil, remaining, List.append_nil]
    exact hthrough.inOrder.passed
  | failed => contradiction

/-- A call that fails does so at a module that the given one leads to, by reason of a complaint or as the
body has thrown. -/
theorem Links.failed {out : Store × Result} (h : s₀.Links β calm root out) (hs : s₀.Linkable root) {e : ErrorId}
    (he : out.2.toCompletion = .error e) :
    ∃ m, Relation.ReflTransGen s₀.Requires root m ∧ s₀.verdict? β m = some (out.1.error e) := by
  obtain ⟨s, w, done, hthrough, halone, hechoes, hends⟩ := h.goesThrough hs
  cases hends with
  | done => contradiction
  | @failed s' m rest e' hframes _ hverdict =>
    obtain rfl := Except.error.inj he
    have hm := (halone.linking.tidy w List.mem_cons_self).mem (f := ⟨m, []⟩) (hframes ▸ List.mem_cons_self)
    have hleads := hthrough.explores.leads m hm
    refine ⟨m, hleads, ?_⟩
    rw [error_unlink, ← hverdict, hs.verdict? hechoes hleads]

/-- A call in the course of a run has come to an end. -/
structure Concluded (β : ModuleId → Option ThrownError) (s₀ s : Store) (root : ModuleId) (M : Machine)
    (r : Result) : Prop where
  linkable : s.Linkable root
  links : s.Links β (s.LinksOnly root) root (M.store, r)
  turns : Turns Machine.LinksApart (.idle s₀) (.idle M.store)
  echoes : s.Echoes M.store
  linking : Linking M.store []

theorem LinksAs.concluded (hcall : s.LinksAs β root) (hs : s₀.Unread) (hfresh : s₀.Fresh)
    (hturns : Turns Machine.LinksApart (.idle s₀) (.idle s)) (hroot : s.Old root) :
    ∃ n r, (Machine.step^[n] (.start s (.link root))).result? = some r ∧
      s₀.Concluded β s root (Machine.step^[n] (.start s (.link root))) r := by
  have hupright := hs.interlinked hfresh.upright
  have hinterlinked := hupright.turns hturns
  obtain ⟨n, r, hr, hlinks⟩ := hcall.ends hinterlinked (hs.vetted.turns hupright hturns) hroot
  obtain ⟨W, T, hcharts⟩ := hinterlinked.charts
  have hafter : Turns Machine.LinksApart (.idle s) (.idle (Machine.step^[n] (.start s (.link root))).store) :=
    (hcall.turns n).tail (.finish hr)
  refine ⟨n, r, hr, ⟨hcharts.filed, hcharts.rounded, hroot⟩, hlinks, hturns.trans hafter, ?_, ?_⟩
  · exact State.Charted.turns_echoes hinterlinked.1 (hafter.mono fun _ _ ↦ Machine.LinksApart.fair)
  · exact (hupright.turns (hturns.trans hafter)).linking.1

end Store

/-- In a call in which bodies throw nothing, and link nothing, while environments are set up: a module that has
been loaded is linked if and only if all names that the modules which it leads to re-export and import stand for
single things. Then all of these are linked, and their environments bind the names that they import. Otherwise
the error is a syntax error. -/
theorem linking_succeeds_iff_names_resolve (hs : s₀.Unread) (hfresh : s₀.Fresh)
    (hturns : Turns Machine.LinksApart (.idle s₀) (.idle s)) (hroot : s.Old root)
    (hcall : s.LinksAs (fun _ ↦ none) root) :
    ∃ M n r, M = Machine.step^[n] (.start s (.link root)) ∧ M.result? = some r ∧
      (r.toCompletion = .ok () ↔ ∀ x, Relation.ReflTransGen s.Requires root x → (s.source? x).isSome →
        s.NamesResolve x) ∧
      (r.toCompletion = .ok () → ∀ x, Relation.ReflTransGen s.Requires root x → (s.source? x).isSome →
        M.store.Linked x ∧ M.store.Bound x) ∧
      ∀ e, r.toCompletion = .error e → (M.store.error e).kind = .syntaxError := by
  obtain ⟨n, r, hr, hconcluded⟩ := hcall.concluded hs hfresh hturns hroot
  have hlinkable := hconcluded.linkable
  have hlinks := hconcluded.links
  refine ⟨_, n, r, rfl, hr, ?_⟩
  generalize Machine.step^[n] (.start s (.link root)) = M at hlinks
  refine ⟨⟨fun hok x hx _ ↦ ?_, fun hall ↦ ?_⟩, fun hok x hx hsource ↦ ?_, fun e he ↦ ?_⟩
  · exact (hlinkable.namesResolve_iff hx).2 (hlinks.linked hlinkable hok hx).2.2
  · rcases hcompletion : r.toCompletion with e | ⟨⟩
    · obtain ⟨m, hm, hverdict⟩ := hlinks.failed hlinkable hcompletion
      have hresolve : s.NamesResolve m := by
        rcases hsource : s.source? m with _ | t
        · exact .of_source_eq_none hsource
        · exact hall m hm (by rw [hsource]; rfl)
      rw [Store.verdict?, (hlinkable.namesResolve_iff hm).1 hresolve] at hverdict
      contradiction
    · rfl
  · obtain ⟨hlinked, hbound, -⟩ := hlinks.linked hlinkable hok hx
    exact ⟨hlinked, hbound hsource⟩
  · obtain ⟨m, -, hverdict⟩ := hlinks.failed hlinkable he
    rw [Store.verdict?, Option.or_none] at hverdict
    exact Store.kind_of_complaint? hverdict

/-! ### A graph with an import that fails -/

/-- A check for `LinksAlone` and `Behaves`, in calls in which the host is not asked and nothing is evaluated. -/
def Machine.linksAsNow (β : ModuleId → Option ThrownError) (M : Machine) : Bool :=
  match M.control, M.frames with
  | .run (.evaluate _), _ => false
  | .run (.link _), _ => M.linkWalks.isEmpty
  | .run (.answers _), _ => false
  | .give r, .setUp m _ :: _ => M.store.thrown? r == β m
  | _, _ => true

theorem Store.linksAs_of_linksAsNow {n : ℕ}
    (h : ∀ i ≤ n, (Machine.step^[i] (.start s (.link root))).linksAsNow β = true)
    (hr : (Machine.step^[n] (.start s (.link root))).result?.isSome) : s.LinksAs β root := by
  intro i
  have hi := Machine.forall_iterate_of_result? (P := fun M ↦ M.linksAsNow β = true) h hr i
  generalize Machine.step^[i] (.start s (.link root)) = M at hi
  refine ⟨⟨fun m hm ↦ ?_, fun m hm ↦ ?_, fun a rest m hm ↦ ?_⟩, fun r m w fs hcontrol hframes ↦ ?_⟩
  · simp [Machine.linksAsNow, hm] at hi
  · simpa [Machine.linksAsNow, hm] using hi
  · simp [Machine.linksAsNow, hm] at hi
  · simpa [Machine.linksAsNow, hcontrol, hframes] using hi

/-- The last module imports something that the second one does not have. -/
def lackingNames : List (List Syntax.Declaration × List Step) :=
  [([.imports [⟨some "a", "a"⟩] { specifier := "lib" }], []),
    ([.exportVariables ⟨.let, [⟨.leaf (.identifier "a"), none⟩]⟩], []),
    ([.imports [⟨some "b", "b"⟩] { specifier := "lib" }], [])]

def lackingGraph : Store where
  modules := (lackingNames.map fun p ↦ Module.written p.1 p.2).toArray
  stage := { modules := [("lib", ⟨1⟩)] }

/-- All of its modules have been loaded. -/
def lackingGraph.loaded : Store :=
  ((Machine.start ((Machine.start lackingGraph (.load ⟨0⟩ none)).serve 20).store (.load ⟨2⟩ none)).serve 20).store

theorem lackingGraph.turns_loaded : Turns Machine.LinksApart (.idle lackingGraph) (.idle loaded) := by
  have hcheck := Machine.linksApart_of_linksAside
  exact Turns.served (a := .load ⟨2⟩ none) (n := 20)
    (Turns.served (a := .load ⟨0⟩ none) (n := 20) .refl hcheck rfl (by decide +kernel) (by decide +kernel))
    hcheck rfl (by decide +kernel) (by decide +kernel)

theorem linking_succeeds_iff_names_resolve_lackingGraph :
    lackingGraph.Unread ∧ lackingGraph.Fresh ∧ ∃ s, Turns Machine.LinksApart (.idle lackingGraph) (.idle s) ∧
      (s.Old ⟨0⟩ ∧ s.LinksAs (fun _ ↦ none) ⟨0⟩ ∧ ∃ n r,
        (Machine.step^[n] (.start s (.link ⟨0⟩))).result? = some r ∧ r.toCompletion = .ok () ∧
        (Machine.step^[n] (.start s (.link ⟨0⟩))).store.Bound ⟨0⟩) ∧
      s.Old ⟨2⟩ ∧ s.LinksAs (fun _ ↦ none) ⟨2⟩ ∧ ¬s.NamesResolve ⟨2⟩ ∧ ∃ n r e,
        (Machine.step^[n] (.start s (.link ⟨2⟩))).result? = some r ∧ r.toCompletion = .error e ∧
        ((Machine.step^[n] (.start s (.link ⟨2⟩))).store.error e).kind = .syntaxError := by
  obtain ⟨hunread, hfresh, -⟩ := Store.unread_of_written (s := lackingGraph) (l := lackingNames) rfl rfl rfl rfl
    (by simp [lackingNames, Entries.requestOf?])
  have hturns := lackingGraph.turns_loaded
  have hold : ∀ i, i < 3 → lackingGraph.loaded.Old ⟨i⟩ := by
    unfold Store.Old
    decide +kernel
  have hcall : lackingGraph.loaded.LinksAs (fun _ ↦ none) ⟨0⟩ :=
    Store.linksAs_of_linksAsNow (n := 12) (by decide +kernel) (by decide +kernel)
  have hcall' : lackingGraph.loaded.LinksAs (fun _ ↦ none) ⟨2⟩ :=
    Store.linksAs_of_linksAsNow (n := 12) (by decide +kernel) (by decide +kernel)
  refine ⟨hunread, hfresh, _, hturns, ⟨hold 0 (by decide), hcall, ?_⟩, hold 2 (by decide), hcall', ?_⟩
  · obtain ⟨M, n, r, rfl, hr, hiff, hok, -⟩ :=
      linking_succeeds_iff_names_resolve hunread hfresh hturns (hold 0 (by decide)) hcall
    have hreach : ∀ x, Relation.ReflTransGen lackingGraph.loaded.Requires ⟨0⟩ x → x = ⟨0⟩ ∨ x = ⟨1⟩ := by
      have hfirst : lackingGraph.loaded.requested ⟨0⟩ = [⟨1⟩] := by decide +kernel
      have hsecond : lackingGraph.loaded.requested ⟨1⟩ = [] := by decide +kernel
      intro x hx
      induction hx with
      | refl => exact .inl rfl
      | tail _ hd ih =>
        rw [← Store.mem_requested] at hd
        rcases ih with rfl | rfl
        · exact .inr (by simpa [hfirst] using hd)
        · simp [hsecond] at hd
    have hsucceeds : r.toCompletion = .ok () := hiff.2 fun x hx _ ↦ by
      rcases hreach x hx with rfl | rfl <;> decide +kernel
    exact ⟨n, r, hr, hsucceeds, (hok hsucceeds ⟨0⟩ .refl (by decide +kernel)).2⟩
  · obtain ⟨M, n, r, rfl, hr, hiff, -, herror⟩ :=
      linking_succeeds_iff_names_resolve hunread hfresh hturns (hold 2 (by decide)) hcall'
    have hnot : ¬lackingGraph.loaded.NamesResolve ⟨2⟩ := by decide +kernel
    refine ⟨hnot, ?_⟩
    rcases hcompletion : r.toCompletion with e | ⟨⟩
    · exact ⟨n, r, e, hr, hcompletion, herror e hcompletion⟩
    · exact absurd (hiff.1 hcompletion ⟨2⟩ .refl (by decide +kernel)) hnot

end EcmaModules
