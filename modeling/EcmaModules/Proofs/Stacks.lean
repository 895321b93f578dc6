import EcmaModules.Proofs.Charting
import EcmaModules.Proofs.Linkage

/-!
# What lies on the stack of a walk that links

The modules on the path of a walk divide its stack into parts: a module of the path, and above it
those that the walk came to from there and that could not be taken off yet. What matters of such a part
is what its modules request. As far as the walk is through with these requests, they stand for modules
that are linked, or for modules on the stack, and of the latter none lies before the earliest point
that the module of the path is known to lead back to.

So when that point is the one at which the walk came to the module, nothing above it requests anything
below, and the modules that are taken off request only each other and modules that are linked.

## Why the earliest point is not said to be reached

A component is taken off when the walk is through with its root. Nothing is said here about a module
that stays on the stack, for no harm would come of it: the part of the module goes to the one before it
on the path, and at the beginning of the path there is no earlier point to lead back to.
-/

namespace EcmaModules

variable {s s' : Store} {S S' T : List ModuleId} {F : List LinkFrame} {m x d : ModuleId}

/-! ## Points -/

namespace Store

/-- The point at which a walk came to the module. -/
def index (s : Store) (m : ModuleId) : ℕ := ((s.points? m).map Prod.fst).getD 0

/-- The earliest point that the module is known to lead back to. -/
def earliest (s : Store) (m : ModuleId) : ℕ := ((s.points? m).map Prod.snd).getD 0

/-- A module that need not be linked any more, or a synthetic one. -/
def Linked (s : Store) (m : ModuleId) : Prop :=
  ∀ r, s.source? m = some r → .linked ≤ r.status

/-- The module was given for a request that the other one makes. -/
def Requires (s : Store) (m d : ModuleId) : Prop :=
  ∃ q ∈ (s.entries m).requests, s.imported? m q = some d

/-- Modules that are linked request only such modules. -/
def LinkClosed (s : Store) : Prop := ∀ m d, s.Linked m → s.Requires m d → s.Linked d

theorem linked_iff : s.Linked m ↔ ∀ status, s.status? m = some status → .linked ≤ status := by
  unfold Linked status?
  rcases s.source? m with _ | r <;> simp

theorem Linked.congr (h : s.Linked m) (hm : s'.status? m = s.status? m) : s'.Linked m := by
  rw [linked_iff] at h ⊢
  rwa [hm]

theorem not_linked_of_linking (h : s.status? m = some .linking) : ¬s.Linked m := fun hl ↦
  absurd (linked_iff.1 hl _ h) (by decide)

theorem points?_modifySource_of_points {f : SourceText → SourceText}
    (hf : ∀ r, (f r).points = r.points) (x : ModuleId) :
    (s.modifySource m f).points? x = s.points? x := by
  rw [points?, source?_modifySource, points?]
  split
  · rw [Option.map_map]
    exact congrArg (fun g ↦ (s.source? x).map g) (funext hf)
  · rfl

theorem points?_setDfsIndex (s : Store) (m : ModuleId) (index : ℕ) (x : ModuleId) :
    (s.setDfsIndex m index).points? x =
      if x = m then (s.points? x).map fun _ ↦ (index, index) else s.points? x := by
  rw [setDfsIndex, points?, source?_modifySource, points?]
  split
  · rw [Option.map_map, Option.map_map]
    rfl
  · rfl

theorem points?_lowerAncestor (s : Store) (m : ModuleId) (index : ℕ) (x : ModuleId) :
    (s.lowerAncestor m index).points? x =
      if x = m then (s.points? x).map fun p ↦ (p.1, min p.2 index) else s.points? x := by
  rw [lowerAncestor, points?, source?_modifySource, points?]
  split
  · rw [Option.map_map, Option.map_map]
    rfl
  · rfl

theorem index_lowerAncestor (s : Store) (m : ModuleId) (index : ℕ) (x : ModuleId) :
    (s.lowerAncestor m index).index x = s.index x := by
  rw [Store.index, points?_lowerAncestor, Store.index]
  split
  · rw [Option.map_map]
    rfl
  · rfl

theorem earliest_lowerAncestor_le (s : Store) (m : ModuleId) (index : ℕ) (x : ModuleId) :
    (s.lowerAncestor m index).earliest x ≤ s.earliest x := by
  rw [earliest, points?_lowerAncestor, earliest]
  split
  · rcases s.points? x with _ | ⟨i, j⟩
    · exact le_rfl
    · exact min_le_left j index
  · exact le_rfl

theorem earliest_lowerAncestor_self (s : Store) (m : ModuleId) (index : ℕ) :
    (s.lowerAncestor m index).earliest m ≤ index := by
  rw [earliest, points?_lowerAncestor, if_pos rfl]
  rcases s.points? m with _ | ⟨i, j⟩
  · exact Nat.zero_le index
  · exact min_le_right j index

theorem points?_foldl_setStatus (status : Status) (ms : List ModuleId) (s : Store) (x : ModuleId) :
    (ms.foldl (fun s m ↦ s.setStatus m status) s).points? x = s.points? x := by
  induction ms generalizing s with
  | nil => rfl
  | cons m ms ih =>
    refine (ih _).trans (points?_modifySource_of_points ?_ x)
    exact fun _ ↦ rfl

theorem status?_foldl_setStatus_of_mem {status : Status} {ms : List ModuleId} (hx : x ∈ ms)
    (s : Store) (hsource : (s.status? x).isSome) :
    (ms.foldl (fun s m ↦ s.setStatus m status) s).status? x = some status := by
  induction ms generalizing s with
  | nil => contradiction
  | cons m ms ih =>
    have hset : ((s.setStatus m status).status? x).isSome := by
      rw [status?_setStatus]
      split
      · rwa [Option.isSome_map]
      · exact hsource
    by_cases hrest : x ∈ ms
    · exact ih hrest _ hset
    · obtain rfl : x = m := (List.mem_cons.1 hx).resolve_right hrest
      rw [List.foldl_cons, status?_foldl_setStatus hrest, status?_setStatus, if_pos rfl]
      obtain ⟨r, hr⟩ := Option.isSome_iff_exists.1 hsource
      rw [hr]
      rfl

theorem isComponentRoot_iff (h : (s.status? m).isSome) :
    s.isComponentRoot m = true ↔ s.earliest m = s.index m := by
  obtain ⟨r, hr⟩ := Option.isSome_iff_exists.1 (Option.isSome_map ▸ h)
  simp [isComponentRoot, earliest, index, points?, hr, SourceText.points]

theorem requires_congr (hentries : s'.entries m = s.entries m)
    (himported : ∀ q ∈ (s.entries m).requests, s'.imported? m q = s.imported? m q) (d : ModuleId) :
    s'.Requires m d ↔ s.Requires m d := by
  unfold Requires
  rw [hentries]
  exact exists_congr fun q ↦ and_congr_right fun hq ↦ by rw [himported q hq]

end Store

theorem Same.requires (h : Same s s') (m d : ModuleId) : s'.Requires m d ↔ s.Requires m d :=
  Store.requires_congr (h.entries m) (fun q _ ↦ h.imported m q) d

/-! ## Stacks -/

namespace Store

/-- The module is linked, or is on the stack not before the point. -/
def Met (s : Store) (S : List ModuleId) (low : ℕ) (d : ModuleId) : Prop :=
  s.Linked d ∨ d ∈ S ∧ low ≤ s.index d

/-- The stack is made up of the parts of the path's modules. `S` is the whole stack of the walk. -/
inductive Stacked (s : Store) (S : List ModuleId) : List LinkFrame → List ModuleId → Prop where
  | nil : Stacked s S [] []
  | cons {f : LinkFrame} {frames : List LinkFrame} {below : List ModuleId} (seen : List Request)
      (above : List ModuleId) :
      Stacked s S frames below →
      (s.entries f.module).requests = seen ++ f.requests →
      (∀ q ∈ seen, ∀ d, s.imported? f.module q = some d → s.Met S (s.earliest f.module) d) →
      (∀ x ∈ above, ∀ d, s.Requires x d → s.Met S (s.earliest f.module) d) →
      (∀ y ∈ below, s.index y < s.index f.module) →
      (below = [] → s.index f.module = 0) →
      Stacked s S (f :: frames) (above ++ f.module :: below)

/-- A change that leaves to the modules of a part of the stack what they request. What is not on the
stack any more is linked. -/
structure Leaves (s s' : Store) (S S' T : List ModuleId) : Prop where
  linked : ∀ d, s.Linked d → s'.Linked d
  stack : ∀ d ∈ S, s'.Linked d ∨ d ∈ S'
  index : ∀ d ∈ S, s'.index d = s.index d
  low : ∀ x ∈ T, s'.earliest x ≤ s.earliest x
  entries : ∀ x ∈ T, s'.entries x = s.entries x
  imported : ∀ x ∈ T, ∀ q ∈ (s.entries x).requests, s'.imported? x q = s.imported? x q

theorem Leaves.met (h : s.Leaves s' S S' T) {low low' : ℕ} (hm : s.Met S low d) (hlow : low' ≤ low) :
    s'.Met S' low' d := by
  rcases hm with hlinked | ⟨hd, hle⟩
  · exact .inl (h.linked d hlinked)
  · refine (h.stack d hd).imp_right fun hd' ↦ ⟨hd', ?_⟩
    rw [h.index d hd]
    exact hlow.trans hle

theorem Stacked.leave {R : List ModuleId} (h : s.Stacked S F R) (hs : s.Leaves s' S S' T)
    (hS : R ⊆ S) (hT : R ⊆ T) : s'.Stacked S' F R := by
  induction h with
  | nil => exact .nil
  | @cons f frames below seen above hbelow hrequests hseen habove hindex hbottom ih =>
    have hmem : ∀ x ∈ above ++ f.module :: below, x ∈ T := fun x hx ↦ hT hx
    have hf := hmem f.module (by simp)
    have hsub : below ⊆ above ++ f.module :: below := fun x hx ↦ by simp [hx]
    have hfS : f.module ∈ S := hS (by simp)
    refine .cons seen above (ih (List.Subset.trans hsub hS) (List.Subset.trans hsub hT)) ?_ ?_ ?_ ?_ ?_
    · rw [hs.entries _ hf, hrequests]
    · intro q hq d hd
      rw [hs.imported _ hf q (by simp [hrequests, hq])] at hd
      exact hs.met (hseen q hq d hd) (hs.low _ hf)
    · intro x hx d hd
      have hxT := hmem x (by simp [hx])
      rw [requires_congr (hs.entries x hxT) (hs.imported x hxT)] at hd
      exact hs.met (habove x hx d hd) (hs.low _ hf)
    · intro y hy
      rw [hs.index y (hS (hsub hy)), hs.index _ hfS]
      exact hindex y hy
    · intro hnil
      rw [hs.index _ hfS]
      exact hbottom hnil

/-- The walk is through with a request. -/
theorem Stacked.pass {q : Request} {requests : List Request} {R : List ModuleId}
    (h : s.Stacked S (⟨m, q :: requests⟩ :: F) R)
    (hmet : ∀ d, s.imported? m q = some d → s.Met S (s.earliest m) d) :
    s.Stacked S (⟨m, requests⟩ :: F) R := by
  generalize hframes : (⟨m, q :: requests⟩ :: F : List LinkFrame) = frames at h
  cases h with
  | nil => contradiction
  | @cons f _ below seen above hbelow hrequests hseen habove hindex hbottom =>
    obtain ⟨rfl, rfl⟩ := List.cons.inj hframes
    refine .cons (f := ⟨m, requests⟩) (seen ++ [q]) above hbelow ?_ (fun q' hq' ↦ ?_) habove hindex
      hbottom
    · simpa using hrequests
    · rcases List.mem_append.1 hq' with hq' | hq'
      · exact hseen q' hq'
      · obtain rfl := List.mem_singleton.1 hq'
        exact hmet

end Store

/-- The stack of a walk is in order, and the points of the modules on it. -/
structure LinkWalk.Tidy (s : Store) (w : LinkWalk) : Prop where
  stacked : s.Stacked w.stack w.frames w.stack
  low : ∀ x ∈ w.stack, s.earliest x ≤ s.index x
  index : ∀ x ∈ w.stack, s.index x < w.index

namespace LinkWalk

variable {w : LinkWalk} {L : List LinkTour} {q : Request} {requests : List Request}
  {rest : List LinkFrame}

theorem Tidy.empty (s : Store) : Tidy s {} := ⟨.nil, nofun, nofun⟩

theorem Tidy.leave (h : w.Tidy s) (hs : s.Leaves s' w.stack w.stack w.stack) : w.Tidy s' := by
  refine ⟨h.stacked.leave hs (List.Subset.refl _) (List.Subset.refl _), fun x hx ↦ ?_, fun x hx ↦ ?_⟩
  · rw [hs.index x hx]
    exact (hs.low x hx).trans (h.low x hx)
  · rw [hs.index x hx]
    exact h.index x hx

/-- The walk goes on to the next request of the module. -/
theorem Tidy.pass (h : w.Tidy s) (hframes : w.frames = ⟨m, q :: requests⟩ :: rest)
    (hmet : ∀ d, s.imported? m q = some d → s.Met w.stack (s.earliest m) d) :
    Tidy s { w with frames := ⟨m, requests⟩ :: rest } :=
  ⟨.pass (hframes ▸ h.stacked) hmet, h.low, h.index⟩

/-! ### Entering a module -/

theorem index_of_points {i j : ℕ} (h : s.points? m = some (i, j)) : s.index m = i ∧ s.earliest m = j := by
  simp [Store.index, Store.earliest, h]

theorem status?_enter_of_ne (hx : x ≠ d) (i : ℕ) :
    ((s.setStatus d .linking).setDfsIndex d i).status? x = s.status? x := by
  refine (Store.status?_modifySource_of_status ?_ x).trans ?_
  · exact fun _ ↦ rfl
  · rw [Store.status?_setStatus, if_neg hx]

theorem points?_enter_of_ne (hx : x ≠ d) (i : ℕ) :
    ((s.setStatus d .linking).setDfsIndex d i).points? x = s.points? x := by
  rw [Store.points?_setDfsIndex, if_neg hx]
  refine Store.points?_modifySource_of_points ?_ x
  exact fun _ ↦ rfl

theorem status?_enter (hd : s.status? d = some .unlinked) (i : ℕ) :
    ((s.setStatus d .linking).setDfsIndex d i).status? d = some .linking := by
  refine (Store.status?_modifySource_of_status ?_ d).trans ?_
  · exact fun _ ↦ rfl
  · rw [Store.status?_setStatus, if_pos rfl, hd]
    rfl

theorem linked_enter (hd : s.status? d = some .unlinked) (i : ℕ) (x : ModuleId) :
    ((s.setStatus d .linking).setDfsIndex d i).Linked x ↔ s.Linked x := by
  by_cases hx : x = d
  · subst hx
    refine iff_of_false (Store.not_linked_of_linking (status?_enter hd i)) fun hl ↦ ?_
    exact absurd (Store.linked_iff.1 hl _ hd) (by decide)
  · rw [Store.linked_iff, status?_enter_of_ne hx, Store.linked_iff]

/-- Nothing else changes when a module is entered that was unlinked. -/
theorem enter_leaves (hd : s.status? d = some .unlinked) (hS : ∀ x ∈ S, s.status? x = some .linking)
    (i : ℕ) : s.Leaves ((s.setStatus d .linking).setDfsIndex d i) S (d :: S) S := by
  have hne : ∀ x ∈ S, x ≠ d := by
    rintro x hx rfl
    exact nomatch hd.symm.trans (hS x hx)
  have hsame := (enter_inside hd i).same
  refine ⟨fun x hx ↦ (linked_enter hd i x).2 hx, fun x hx ↦ .inr (List.mem_cons_of_mem d hx),
    fun x hx ↦ ?_, fun x hx ↦ ?_, fun x _ ↦ hsame.entries x, fun x _ q _ ↦ hsame.imported x q⟩
  · rw [Store.index, points?_enter_of_ne (hne x hx), Store.index]
  · rw [Store.earliest, points?_enter_of_ne (hne x hx), Store.earliest]

theorem points?_enter (hd : s.status? d = some .unlinked) (i : ℕ) :
    ((s.setStatus d .linking).setDfsIndex d i).points? d = some (i, i) := by
  obtain ⟨r, hr, -⟩ := Option.map_eq_some_iff.1 hd
  rw [Store.points?_setDfsIndex, if_pos rfl, Store.setStatus, Store.points?, Store.source?_modifySource,
    if_pos rfl, hr]
  rfl

/-- A module that was just entered is on top, and the walk has not come to its requests. -/
theorem Tidy.push (hstacked : s.Stacked (d :: w.stack) w.frames w.stack)
    (hlow : ∀ x ∈ w.stack, s.earliest x ≤ s.index x) (hindex : ∀ x ∈ w.stack, s.index x < w.index)
    (hpoints : s.points? d = some (w.index, w.index)) (hstart : w.stack = [] → w.index = 0)
    (hrequests : (s.entries d).requests = requests) :
    Tidy s { frames := ⟨d, requests⟩ :: w.frames, stack := d :: w.stack, index := w.index + 1 } := by
  obtain ⟨hi, hl⟩ := index_of_points hpoints
  refine ⟨.cons (f := ⟨d, requests⟩) [] [] hstacked hrequests nofun nofun ?_ ?_,
    ?_, ?_⟩
  · exact fun y hy ↦ hi ▸ hindex y hy
  · exact fun hnil ↦ hi.trans (hstart hnil)
  · exact List.forall_mem_cons.2 ⟨le_of_eq (hl.trans hi.symm), hlow⟩
  · exact List.forall_mem_cons.2 ⟨hi ▸ Nat.lt_succ_self w.index,
      fun x hx ↦ (hindex x hx).trans (Nat.lt_succ_self _)⟩

/-- A walk begins with the module that it is to link. -/
theorem Tidy.start (hm : s.status? m = some .unlinked) :
    Tidy ((s.setStatus m .linking).setDfsIndex m 0)
      { frames := [⟨m, (s.entries m).requests⟩], stack := [m], index := 1 } := by
  refine Tidy.push (w := {}) .nil nofun nofun (points?_enter hm 0) (fun _ ↦ rfl) ?_
  rw [(enter_inside hm 0).same.entries]

/-- The modules of the path are on the stack. -/
theorem Tidy.mem (h : w.Tidy s) {f : LinkFrame} (hf : f ∈ w.frames) : f.module ∈ w.stack := by
  have hall : ∀ {F R}, s.Stacked w.stack F R → ∀ f ∈ F, f.module ∈ R := fun hstacked ↦ by
    induction hstacked with
    | nil => exact nofun
    | cons _ _ _ _ _ _ _ _ ih =>
      refine List.forall_mem_cons.2 ⟨by simp, fun g hg ↦ ?_⟩
      exact List.mem_append_right _ (List.mem_cons_of_mem _ (ih g hg))
  exact hall h.stacked f hf

/-- The requests that a walk has not come to yet are requests of the module. -/
theorem Tidy.asked (h : w.Tidy s) (hframes : w.frames = ⟨m, q :: requests⟩ :: rest) :
    q ∈ (s.entries m).requests := by
  have hstacked := h.stacked
  rw [hframes] at hstacked
  generalize hf : (⟨m, q :: requests⟩ :: rest : List LinkFrame) = frames at hstacked
  generalize hR : w.stack = R at hstacked
  cases hstacked with
  | nil => contradiction
  | cons seen above _ hrequests =>
    obtain ⟨rfl, rfl⟩ := List.cons.inj hf
    simp [hrequests]

/-- What a walk comes to is requested. -/
theorem Tidy.requires (h : w.Tidy s) (hframes : w.frames = ⟨m, q :: requests⟩ :: rest)
    (hq : s.imported? m q = some d) : s.Requires m d := ⟨q, h.asked hframes, hq⟩

/-- The walk enters a module that was requested. -/
theorem Tidy.enter (h : w.Tidy s) (hframes : w.frames = ⟨m, q :: requests⟩ :: rest)
    (hq : s.imported? m q = some d) (hd : s.status? d = some .unlinked)
    (hS : ∀ x ∈ w.stack, s.status? x = some .linking) :
    Tidy ((s.setStatus d .linking).setDfsIndex d w.index)
      { frames := ⟨d, (s.entries d).requests⟩ :: ⟨m, requests⟩ :: rest
        stack := d :: w.stack
        index := w.index + 1 } := by
  have hleaves := enter_leaves hd hS w.index
  have hpoints := points?_enter hd w.index
  have hsame := (enter_inside hd w.index).same
  have hm := h.mem (f := ⟨m, q :: requests⟩) (hframes ▸ List.mem_cons_self)
  refine Tidy.push (w := { w with frames := ⟨m, requests⟩ :: rest }) ?_ (fun x hx ↦ ?_)
    (fun x hx ↦ ?_) hpoints (fun hnil ↦ ?_) (by rw [hsame.entries])
  · have hstacked := h.stacked.leave hleaves (List.Subset.refl _) (List.Subset.refl _)
    rw [hframes] at hstacked
    refine hstacked.pass fun d' hd' ↦ .inr ?_
    rw [hsame.imported, hq] at hd'
    obtain rfl := Option.some.inj hd'
    refine ⟨List.mem_cons_self, ?_⟩
    rw [(index_of_points hpoints).1]
    exact (hleaves.low m hm).trans ((h.low m hm).trans (h.index m hm).le)
  · rw [hleaves.index x hx]
    exact (hleaves.low x hx).trans (h.low x hx)
  · rw [hleaves.index x hx]
    exact h.index x hx
  · exact absurd hm (hnil ▸ List.not_mem_nil)

/-! ### Leaving a module -/

theorem leave_of_linking (hd : s.status? d = some .linking) (m : ModuleId) :
    leave s m d = s.lowerAncestor m (s.earliest d) := by
  obtain ⟨r, hr, hs⟩ := Option.map_eq_some_iff.1 hd
  simp [leave, Store.earliest, Store.points?, hr, hs, SourceText.points]

theorem leave_of_not_linking (hd : s.status? d ≠ some .linking) (m : ModuleId) :
    leave s m d = s := by
  unfold leave
  split
  · next r hr => exact if_neg fun hs ↦ hd (by rw [Store.status?, hr, Option.map_some, hs])
  · rfl

theorem points?_leave_of_ne (hx : x ≠ m) (d : ModuleId) :
    (leave s m d).points? x = s.points? x := by
  by_cases hd : s.status? d = some .linking
  · rw [leave_of_linking hd, Store.points?_lowerAncestor, if_neg hx]
  · rw [leave_of_not_linking hd]

/-- A module on the stack is let know an earlier point. -/
theorem lower_leaves (hm : s.status? m = some .linking) (i : ℕ) :
    s.Leaves (s.lowerAncestor m i) S S T := by
  have hsame : Same s (s.lowerAncestor m i) :=
    (Store.modifyDfs_inside (Store.outline_of_linking hm) fun r ↦ ⟨_, _, rfl⟩).same
  refine ⟨fun x hx ↦ hx.congr (Store.status?_modifySource_of_status ?_ x), fun x hx ↦ .inr hx,
    fun x _ ↦ s.index_lowerAncestor m i x, fun x _ ↦ s.earliest_lowerAncestor_le m i x,
    fun x _ ↦ hsame.entries x, fun x _ q _ ↦ hsame.imported x q⟩
  exact fun _ ↦ rfl

/-- The walk comes to a module that it does not enter. -/
theorem Tidy.meet (h : w.Tidy s) (hframes : w.frames = ⟨m, q :: requests⟩ :: rest)
    (hq : s.imported? m q = some d) (hS : ∀ x ∈ w.stack, s.status? x = some .linking)
    (hd : s.Linked d ∨ d ∈ w.stack) :
    Tidy (LinkWalk.leave s m d) { w with frames := ⟨m, requests⟩ :: rest } := by
  have hm := h.mem (f := ⟨m, q :: requests⟩) (by simp [hframes])
  by_cases hlinking : s.status? d = some .linking
  · have hmem := hd.resolve_left (Store.not_linked_of_linking hlinking)
    have hleaves : s.Leaves (s.lowerAncestor m (s.earliest d)) w.stack w.stack w.stack :=
      lower_leaves (hS m hm) _
    have himported := (leave_inside (hS m hm) d).same.imported m q
    rw [leave_of_linking hlinking] at himported ⊢
    refine (h.leave hleaves).pass hframes fun d' hd' ↦ .inr ?_
    rw [himported, hq] at hd'
    obtain rfl := Option.some.inj hd'
    refine ⟨hmem, (s.earliest_lowerAncestor_self m _).trans ?_⟩
    rw [hleaves.index d hmem]
    exact h.low d hmem
  · rw [leave_of_not_linking hlinking]
    refine h.pass hframes fun d' hd' ↦ .inl ?_
    obtain rfl := Option.some.inj (hq.symm.trans hd')
    exact hd.resolve_right fun hmem ↦ hlinking (hS d hmem)

/-! ### Through with a module -/

theorem frames_conclude (s : Store) (w : LinkWalk) (m : ModuleId) :
    (conclude s w m).2.frames = w.frames := rfl

/-- If the module leads back to no earlier one, everything down to it is linked. -/
theorem conclude_of_root {above below : List ModuleId} (hm : s.status? m = some .linking)
    (hstack : w.stack = above ++ m :: below) (hnot : m ∉ above) (hroot : s.earliest m = s.index m) :
    conclude s w m =
      ((above ++ [m]).foldl (fun s m ↦ s.setStatus m .linked) s, { w with stack := below }) := by
  have hsome : (s.status? m).isSome := by rw [hm]; rfl
  have hlinked : ((above ++ [m]).foldl (fun s m ↦ s.setStatus m .linked) s).status? m ≠
      some .linking := by
    rw [Store.status?_foldl_setStatus_of_mem (by simp) s hsome]
    exact nofun
  unfold conclude
  rw [if_pos ((Store.isComponentRoot_iff hsome).2 hroot), hstack, popComponent_append s below hnot]
  dsimp only
  split
  · rw [leave_of_not_linking hlinked]
  · rfl

/-- If it leads back to an earlier one, the module before it on the path gets to know that. -/
theorem conclude_of_earliest_ne {parent : LinkFrame} (hm : s.status? m = some .linking)
    (hlow : s.earliest m ≠ s.index m) (hframes : w.frames = parent :: rest) :
    conclude s w m = (s.lowerAncestor parent.module (s.earliest m), w) := by
  have hsome : (s.status? m).isSome := by rw [hm]; rfl
  unfold conclude
  rw [if_neg fun h ↦ hlow ((Store.isComponentRoot_iff hsome).1 h)]
  dsimp only
  split
  · next heq =>
    obtain ⟨rfl, -⟩ := List.cons.inj (hframes.symm.trans heq)
    rw [leave_of_linking hm]
  · next heq => exact nomatch hframes.symm.trans heq

theorem linked_foldl_setStatus {ms : List ModuleId} (hms : ∀ x ∈ ms, (s.status? x).isSome) :
    (ms.foldl (fun s m ↦ s.setStatus m .linked) s).Linked x ↔ s.Linked x ∨ x ∈ ms := by
  by_cases hx : x ∈ ms
  · refine iff_of_true (Store.linked_iff.2 fun status hs ↦ ?_) (.inr hx)
    rw [Store.status?_foldl_setStatus_of_mem hx s (hms x hx)] at hs
    exact (Option.some.inj hs).le
  · rw [Store.linked_iff, Store.status?_foldl_setStatus hx, ← Store.linked_iff, or_iff_left hx]

/-- The part of the module that the walk is through with. -/
theorem stacked_head {R : List ModuleId} (h : s.Stacked S (⟨m, []⟩ :: F) R) :
    ∃ above below, R = above ++ m :: below ∧ s.Stacked S F below ∧
      (∀ x ∈ above ++ [m], ∀ d, s.Requires x d → s.Met S (s.earliest m) d) ∧
      (∀ y ∈ below, s.index y < s.index m) ∧ (below = [] → s.index m = 0) := by
  generalize hframes : (⟨m, []⟩ :: F : List LinkFrame) = frames at h
  cases h with
  | nil => contradiction
  | @cons f _ below seen above hbelow hrequests hseen habove hindex hbottom =>
    obtain ⟨rfl, rfl⟩ := List.cons.inj hframes
    refine ⟨above, below, rfl, hbelow, fun x hx d hd ↦ ?_, hindex, hbottom⟩
    rcases List.mem_append.1 hx with hx | hx
    · exact habove x hx d hd
    · obtain rfl := List.mem_singleton.1 hx
      obtain ⟨q, hq, hd⟩ := hd
      rw [hrequests, List.append_nil] at hq
      exact hseen q hq d hd

/-- The part of a module goes to the one before it on the path, which leads back as far. -/
theorem stacked_merge {parent : LinkFrame} (above : List ModuleId) {below : List ModuleId}
    (h : s.Stacked S (parent :: rest) below)
    (habove : ∀ x ∈ above ++ [m], ∀ d, s.Requires x d → s.Met S (s.earliest parent.module) d) :
    s.Stacked S (parent :: rest) (above ++ m :: below) := by
  generalize hframes : parent :: rest = frames at h
  cases h with
  | nil => contradiction
  | @cons f _ below seen above' hbelow hrequests hseen habove' hindex hbottom =>
    obtain ⟨rfl, rfl⟩ := List.cons.inj hframes
    have hassoc : above ++ m :: (above' ++ parent.module :: below) =
        (above ++ m :: above') ++ parent.module :: below := by simp
    rw [hassoc]
    refine .cons seen (above ++ m :: above') hbelow hrequests hseen (fun x hx ↦ ?_) hindex hbottom
    rw [List.mem_append, List.mem_cons, ← or_assoc] at hx
    rcases hx with hx | hx
    · exact habove x (by simpa using hx)
    · exact habove' x hx

/-- A walk that is through with a module: what is not on its stack any more is linked. -/
structure Concludes (s s' : Store) (w w' : LinkWalk) : Prop where
  tidy : w'.Tidy s'
  subset : w'.stack ⊆ w.stack
  points : ∀ x, x ∉ w.stack → s'.points? x = s.points? x
  closed : s.LinkClosed → s'.LinkClosed
  status : ∀ x, s'.status? x = if x ∈ w.stack ∧ x ∉ w'.stack then some .linked else s.status? x

/-- A component is taken off the stack. -/
theorem concludes_root {above below : List ModuleId} (hstack : w.stack = above ++ m :: below)
    (hstacked : s.Stacked w.stack w.frames below)
    (hmet : ∀ x ∈ above ++ [m], ∀ d, s.Requires x d → s.Met w.stack (s.earliest m) d)
    (hindex : ∀ y ∈ below, s.index y < s.index m) (hroot : s.earliest m = s.index m)
    (hlow : ∀ x ∈ w.stack, s.earliest x ≤ s.index x) (hpoint : ∀ x ∈ w.stack, s.index x < w.index)
    (hnodup : w.stack.Nodup) (hlinking : ∀ x ∈ w.stack, s.status? x = some .linking) :
    Concludes s (conclude s w m).1 w (conclude s w m).2 := by
  have hmem : ∀ x, x ∈ w.stack ↔ x ∈ above ++ [m] ∨ x ∈ below := fun x ↦ by
    rw [hstack, List.append_cons, List.mem_append]
  rw [hstack] at hnodup
  have hnot : m ∉ above := fun hmem ↦
    (List.nodup_append.1 hnodup).2.2 m hmem m List.mem_cons_self rfl
  have hdisjoint : ∀ x ∈ below, x ∉ above ++ [m] := fun x hx hx' ↦ by
    rw [List.append_cons] at hnodup
    exact (List.nodup_append.1 hnodup).2.2 x hx' x hx rfl
  have hsome : ∀ x ∈ above ++ [m], (s.status? x).isSome := fun x hx ↦ by
    rw [hlinking x ((hmem x).2 (.inl hx))]
    rfl
  have hlinked := fun x ↦ linked_foldl_setStatus (x := x) hsome
  rw [conclude_of_root (hlinking m ((hmem m).2 (.inl (by simp)))) hstack hnot hroot]
  generalize hs' : (above ++ [m]).foldl (fun s m ↦ s.setStatus m .linked) s = s' at hlinked
  have hpoints : ∀ x, s'.points? x = s.points? x := fun x ↦ by
    rw [← hs', Store.points?_foldl_setStatus]
  have hsame : Same s s' := by
    rw [← hs']
    exact (Store.foldl_setStatus_inside rfl _ _ fun x hx r hr ↦ Store.outline_of_linking
      (hlinking x ((hmem x).2 (.inl hx))) r hr).same
  have hleaves : s.Leaves s' w.stack below below := by
    refine ⟨fun d hd ↦ (hlinked d).2 (.inl hd), fun d hd ↦ ?_, fun d _ ↦ ?_, fun x _ ↦ ?_,
      fun x _ ↦ hsame.entries x, fun x _ q _ ↦ hsame.imported x q⟩
    · exact ((hmem d).1 hd).imp_left fun hd ↦ (hlinked d).2 (.inr hd)
    · rw [Store.index, hpoints, Store.index]
    · rw [Store.earliest, hpoints, Store.earliest]
  have hsub : below ⊆ w.stack := fun x hx ↦ (hmem x).2 (.inr hx)
  refine ⟨⟨hstacked.leave hleaves hsub (List.Subset.refl _), fun x hx ↦ ?_, fun x hx ↦ ?_⟩, hsub,
    fun x _ ↦ hpoints x, fun hclosed x d hx hd ↦ ?_, fun x ↦ ?_⟩
  · rw [hleaves.index x (hsub hx)]
    exact (hleaves.low x hx).trans (hlow x (hsub hx))
  · rw [hleaves.index x (hsub hx)]
    exact hpoint x (hsub hx)
  · rw [hsame.requires] at hd
    rw [hlinked] at hx ⊢
    rcases hx with hx | hx
    · exact .inl (hclosed x d hx hd)
    · rcases hmet x hx d hd with hd | ⟨hd, hle⟩
      · exact .inl hd
      · refine .inr (((hmem d).1 hd).symm.resolve_left fun hd ↦ ?_)
        exact absurd (hroot ▸ hle) (not_le.2 (hindex d hd))
  · by_cases hx : x ∈ above ++ [m]
    · rw [if_pos ⟨(hmem x).2 (.inl hx), fun hx' ↦ hdisjoint x hx' hx⟩, ← hs']
      exact Store.status?_foldl_setStatus_of_mem hx s (hsome x hx)
    · rw [if_neg fun h ↦ h.2 (((hmem x).1 h.1).resolve_left hx), ← hs']
      exact Store.status?_foldl_setStatus hx s

/-- A module stays on the stack, in the part of the one before it on the path. -/
theorem concludes_inner {parent : LinkFrame} {above below : List ModuleId}
    (hstack : w.stack = above ++ m :: below) (hframes : w.frames = parent :: rest)
    (hparent : parent.module ∈ w.stack) (hstacked : s.Stacked w.stack w.frames below)
    (hmet : ∀ x ∈ above ++ [m], ∀ d, s.Requires x d → s.Met w.stack (s.earliest m) d)
    (hinner : s.earliest m ≠ s.index m) (hlow : ∀ x ∈ w.stack, s.earliest x ≤ s.index x)
    (hpoint : ∀ x ∈ w.stack, s.index x < w.index)
    (hlinking : ∀ x ∈ w.stack, s.status? x = some .linking) :
    Concludes s (conclude s w m).1 w (conclude s w m).2 := by
  have hm := hlinking m (by simp [hstack])
  have hleaves : s.Leaves (s.lowerAncestor parent.module (s.earliest m)) w.stack w.stack w.stack :=
    lower_leaves (hlinking _ hparent) _
  have hsub : below ⊆ w.stack := fun x hx ↦ by simp [hstack, hx]
  have hsame : Same s (s.lowerAncestor parent.module (s.earliest m)) := by
    have := leave_inside (hlinking _ hparent) m
    rw [leave_of_linking hm] at this
    exact this.same
  have hstatus : ∀ x, (s.lowerAncestor parent.module (s.earliest m)).status? x = s.status? x := fun x ↦ by
    rw [← leave_of_linking hm, status?_leave]
  rw [conclude_of_earliest_ne hm hinner hframes]
  refine ⟨⟨?_, fun x hx ↦ ?_, fun x hx ↦ ?_⟩, List.Subset.refl _, fun x hx ↦ ?_,
    fun hclosed x d hx hd ↦ ?_, fun x ↦ ?_⟩
  · have hbelow := hstacked.leave hleaves hsub hsub
    rw [hframes] at hbelow ⊢
    have hmerged := stacked_merge above (m := m) hbelow fun x hx d hd ↦ ?_
    · rwa [← hstack] at hmerged
    · rw [hsame.requires] at hd
      exact hleaves.met (hmet x hx d hd) (s.earliest_lowerAncestor_self _ _)
  · rw [hleaves.index x hx]
    exact (hleaves.low x hx).trans (hlow x hx)
  · rw [hleaves.index x hx]
    exact hpoint x hx
  · rw [Store.points?_lowerAncestor, if_neg]
    rintro rfl
    exact hx hparent
  · rw [hsame.requires] at hd
    exact (hclosed x d (hx.congr (hstatus x).symm) hd).congr (hstatus d)
  · rw [if_neg fun h ↦ h.2 h.1]
    exact hstatus x

/-- The walk is through with a module whose variables have been set up. -/
theorem Tidy.conclude (h : Tidy s { w with frames := ⟨m, []⟩ :: w.frames })
    (hl : Linkage s (w.tourAt m :: L)) :
    Concludes s (LinkWalk.conclude s w m).1 w (LinkWalk.conclude s w m).2 := by
  obtain ⟨above, below, hstack, hbelow, hmet, hindex, hbottom⟩ := stacked_head h.stacked
  replace hstack : w.stack = above ++ m :: below := hstack
  have hlinking : ∀ x ∈ w.stack, s.status? x = some .linking := hl.linking _ List.mem_cons_self
  have hnodup : w.stack.Nodup := (List.nodup_append.1 hl.nodup).1
  by_cases hroot : s.earliest m = s.index m
  · exact concludes_root hstack hbelow hmet hindex hroot h.low h.index hnodup hlinking
  · -- the path does not end here, since its first module leads back to no earlier one
    rcases hframes : w.frames with _ | ⟨parent, rest⟩
    · rw [hframes] at hbelow
      have hzero := hbottom (by cases hbelow; rfl)
      have hle := h.low m (show m ∈ w.stack by simp [hstack])
      rw [hzero, Nat.le_zero] at hle
      exact absurd (hle.trans hzero.symm) hroot
    · have hparent := h.mem (f := parent) (List.mem_cons_of_mem _ (hframes ▸ List.mem_cons_self))
      exact concludes_inner hstack hframes hparent hbelow hmet hroot h.low
        h.index hlinking

end LinkWalk

/-! ## Steps of a walk -/

/-- What a walk that links does in a step. -/
inductive LinkWalk.Advances (s : Store) (w : LinkWalk) : Store × LinkStep → Prop where
  | done : w.frames = [] → Advances s w (s, .done)
  | environment {s' : Store} {m : ModuleId} {rest : List LinkFrame} :
      w.frames = ⟨m, []⟩ :: rest → s.initializeEnvironment m = (.ok (), s') →
      Advances s w (s', .setUp m { w with frames := rest })
  | broken {s' : Store} {m : ModuleId} {rest : List LinkFrame} {e : ErrorId} :
      w.frames = ⟨m, []⟩ :: rest → s.initializeEnvironment m = (.error e, s') →
      Advances s w (s', .failed e w.stack)
  | absent {m : ModuleId} {q : Request} {requests : List Request} {rest : List LinkFrame} :
      w.frames = ⟨m, q :: requests⟩ :: rest → s.imported? m q = none →
      Advances s w (s, .go { w with frames := ⟨m, requests⟩ :: rest })
  | enter {m d : ModuleId} {q : Request} {requests : List Request} {rest : List LinkFrame} :
      w.frames = ⟨m, q :: requests⟩ :: rest → s.imported? m q = some d →
      s.status? d = some .unlinked →
      Advances s w ((s.setStatus d .linking).setDfsIndex d w.index,
        .go
          { frames := ⟨d, (s.entries d).requests⟩ :: ⟨m, requests⟩ :: rest
            stack := d :: w.stack
            index := w.index + 1 })
  | meet {m d : ModuleId} {q : Request} {requests : List Request} {rest : List LinkFrame} :
      w.frames = ⟨m, q :: requests⟩ :: rest → s.imported? m q = some d →
      s.status? d ≠ some .unlinked →
      Advances s w (leave s m d, .go { w with frames := ⟨m, requests⟩ :: rest })

theorem LinkWalk.advances (s : Store) (w : LinkWalk) : w.Advances s (w.advance s) := by
  unfold advance
  split
  · next h => exact .done h
  · next m rest h =>
    split
    · next heq => exact .environment h heq
    · next heq => exact .broken h heq
  · next m q requests rest h =>
    dsimp only
    split
    · next hq => exact .absent h hq
    · next d hq =>
      by_cases hd : s.status? d = some .unlinked
      · rw [enter, if_pos hd]
        exact .enter h hq hd
      · rw [enter, if_neg hd]
        exact .meet h hq hd

/-- What comes of the steps that a body takes when the environment of its module is set up. -/
inductive LinkWalk.Resumes (s : Store) (r : Result) (m : ModuleId) (w : LinkWalk) :
    Store × Next → Prop where
  | done : r.toCompletion = .ok () →
      Resumes s r m w ((w.conclude s m).1, .goto (.linking (w.conclude s m).2))
  | failed {e : ErrorId} : r.toCompletion = .error e →
      Resumes s r m w (s.unlink w.stack, .give (.completion (.error e)))

theorem Frame.setUp_resumes (s : Store) (r : Result) (m : ModuleId) (w : LinkWalk) :
    w.Resumes s r m (Frame.resume s r (.setUp m w)) := by
  simp only [resume]
  split
  · next h => exact .done h
  · next h => exact .failed h

/-- What the call to link a module does first. -/
inductive Store.Begins (s : Store) (m : ModuleId) : Store × Next → Prop where
  | refused (message : String) : s.status? m = some .new ∨ s.status? m = some .linking →
      Begins s m ((s.throw .typeError message).2,
        .give (.completion (.error (s.throw .typeError message).1)))
  | enter : s.status? m = some .unlinked →
      Begins s m ((s.setStatus m .linking).setDfsIndex m 0,
        .goto (.linking { frames := [⟨m, (s.entries m).requests⟩], stack := [m], index := 1 }))
  | linked : s.Linked m → Begins s m (s, .goto (.linking {}))

theorem Task.link_begins (s : Store) (m : ModuleId) : s.Begins m (Task.advance s (.link m)) := by
  rcases hs : s.status? m with _ | status
  · have hadvance : Task.advance s (.link m) = (s, .goto (.linking {})) := by
      simp [advance, Store.startLinking, LinkWalk.enter, hs]
    exact hadvance ▸ .linked (Store.linked_iff.2 (by simp [hs]))
  · cases status with
    | new =>
      have hadvance : Task.advance s (.link m) =
          ((s.throw .typeError "Cannot link a module that is not loaded").2, .give (.completion
            (.error (s.throw .typeError "Cannot link a module that is not loaded").1))) := by
        simp [advance, Store.startLinking, hs]
      exact hadvance ▸ .refused _ (.inl hs)
    | linking =>
      have hadvance : Task.advance s (.link m) =
          ((s.throw .typeError "Cannot link a module that is already being linked").2, .give
            (.completion (.error
              (s.throw .typeError "Cannot link a module that is already being linked").1))) := by
        simp [advance, Store.startLinking, hs]
      exact hadvance ▸ .refused _ (.inr hs)
    | unlinked =>
      have hadvance : Task.advance s (.link m) = ((s.setStatus m .linking).setDfsIndex m 0,
          .goto (.linking
            { frames := [⟨m, (s.entries m).requests⟩], stack := [m], index := 1 })) := by
        simp [advance, Store.startLinking, LinkWalk.enter, hs]
      exact hadvance ▸ .enter hs
    | _ =>
      have hadvance : Task.advance s (.link m) = (s, .goto (.linking {})) := by
        simp [advance, Store.startLinking, LinkWalk.enter, hs]
      refine hadvance ▸ .linked (Store.linked_iff.2 fun status hstatus ↦ ?_)
      obtain rfl := Option.some.inj (hs.symm.trans hstatus)
      decide

end EcmaModules
