import EcmaModules.Proofs.Linked
import EcmaModules.Proofs.Woven

/-!
# The components that linking takes off the stack

When a walk that links takes modules off its stack, these are a component of the graph. What the modules
lead to was linked before, or is taken off with them (`EcmaModules.Proofs.Stacks`); here it is added
that each of them leads to the others, from what holds of the stack of a depth-first walk in general
(`EcmaModules.Proofs.Woven`).

## Bodies that link

As in `EcmaModules.Proofs.Linked`, bodies may have further modules linked while their environments are set
up, if these do not lead to modules that are being linked. The walks do not touch each other's modules then.
-/

namespace EcmaModules

variable {s s' : Store} {L : List LinkWalk} {w w' : LinkWalk} {m d x y : ModuleId}

/-! ## Walks -/

namespace LinkWalk

/-- What is known of the stack of a walk. -/
def Woven (s : Store) (w : LinkWalk) : Prop :=
  EcmaModules.Woven s.Requires s.index s.earliest w.stack (w.frames.map LinkFrame.module)

variable {q : Request} {requests : List Request} {rest : List LinkFrame}

theorem Woven.empty (s : Store) : Woven s {} := .nil _ _ _

theorem index_congr (h : s'.points? x = s.points? x) : s'.index x = s.index x := by
  rw [Store.index, h, Store.index]

theorem earliest_congr (h : s'.points? x = s.points? x) : s'.earliest x = s.earliest x := by
  rw [Store.earliest, h, Store.earliest]

/-- A change that leaves alone what the walk has noted in the modules on its stack. -/
theorem Woven.keep (h : w.Woven s) (hpoints : ∀ x ∈ w.stack, s'.points? x = s.points? x)
    (hleads : ∀ x ∈ w.stack, ∀ y, Relation.ReflTransGen s.Requires x y →
      Relation.ReflTransGen s'.Requires x y) : w.Woven s' :=
  EcmaModules.Woven.congr h (fun x hx ↦ index_congr (hpoints x hx))
    (fun x hx ↦ earliest_congr (hpoints x hx)) hleads

/-- The walk passes over a request, or another walk takes a step. -/
theorem Woven.same (h : w.Woven s) (hs : Same s s') (hpoints : ∀ x ∈ w.stack, s'.points? x = s.points? x) :
    w.Woven s' :=
  h.keep hpoints fun x _ y ↦ Relation.ReflTransGen.mono (fun a b ↦ (hs.requires a b).2) x y

theorem Woven.start (hm : s.status? m = some .unlinked) :
    Woven ((s.setStatus m .linking).setDfsIndex m 0)
      { frames := [⟨m, (s.entries m).requests⟩], stack := [m], index := 1 } := by
  obtain ⟨hindex, hearliest⟩ := index_of_points (points?_enter hm 0)
  refine EcmaModules.Woven.push (.nil _ _ _) (by simp) (hearliest.trans hindex.symm) (by simp)

/-- The walk enters a module that is requested. -/
theorem Woven.enter (h : w.Woven s) (htidy : w.Tidy s) (hlinking : ∀ x ∈ w.stack, s.status? x = some .linking)
    (hframes : w.frames = ⟨m, q :: requests⟩ :: rest) (hq : s.imported? m q = some d)
    (hd : s.status? d = some .unlinked) :
    Woven ((s.setStatus d .linking).setDfsIndex d w.index)
      { frames := ⟨d, (s.entries d).requests⟩ :: ⟨m, requests⟩ :: rest
        stack := d :: w.stack
        index := w.index + 1 } := by
  have hsame := (enter_inside hd w.index).same
  have hne : ∀ x ∈ w.stack, x ≠ d := by
    rintro x hx rfl
    exact nomatch hd.symm.trans (hlinking x hx)
  have hpoints : ∀ x ∈ w.stack, ((s.setStatus d .linking).setDfsIndex d w.index).points? x = s.points? x :=
    fun x hx ↦ points?_enter_of_ne (hne x hx) w.index
  obtain ⟨hindex, hearliest⟩ := index_of_points (points?_enter hd w.index)
  have hkept : EcmaModules.Woven _ _ _ _ _ := h.same hsame hpoints
  rw [hframes] at hkept
  refine hkept.push (fun x hx ↦ ?_) (hearliest.trans hindex.symm) ?_
  · rw [index_congr (hpoints x hx), hindex]
    exact htidy.index x hx
  · rintro m' rest' heq
    obtain ⟨rfl, -⟩ := List.cons.inj heq
    exact .single ((hsame.requires _ d).2 (htidy.requires hframes hq))

theorem earliest_lowerAncestor (hm : s.status? m = some .linking) (i : ℕ) :
    (s.lowerAncestor m i).earliest m = min (s.earliest m) i := by
  obtain ⟨r, hr, -⟩ := Option.map_eq_some_iff.1 hm
  rw [Store.earliest, Store.points?_lowerAncestor, if_pos rfl, Store.earliest, Store.points?, hr]
  rfl

/-- What a module on the stack is known to lead back to is noted in the one that the walk is at. -/
theorem Woven.lower {stack path : List ModuleId}
    (h : EcmaModules.Woven s.Requires s.index s.earliest stack (m :: path))
    (hm : s.status? m = some .linking) (hd : d ∈ stack) (hleads : Relation.ReflTransGen s.Requires m d) :
    EcmaModules.Woven (leave s m d).Requires (leave s m d).index (leave s m d).earliest stack (m :: path) := by
  by_cases hlinking : s.status? d = some .linking
  · have hsame := (leave_inside hm d).same
    rw [leave_of_linking hlinking] at hsame ⊢
    have hmet : EcmaModules.Woven s.Requires s.index (s.lowerAncestor m (s.earliest d)).earliest stack
        (m :: path) := by
      refine h.meet hd hleads (earliest_lowerAncestor hm _) fun x _ hx ↦ earliest_congr ?_
      rw [Store.points?_lowerAncestor, if_neg hx]
    refine hmet.congr (fun x _ ↦ s.index_lowerAncestor m _ x) (fun _ _ ↦ rfl) fun x _ y ↦ ?_
    exact Relation.ReflTransGen.mono (fun a b ↦ (hsame.requires a b).2) x y
  · rwa [leave_of_not_linking hlinking]

/-- The walk comes to a module that it does not enter. -/
theorem Woven.meet (h : w.Woven s) (htidy : w.Tidy s) (hlinking : ∀ x ∈ w.stack, s.status? x = some .linking)
    (hframes : w.frames = ⟨m, q :: requests⟩ :: rest) (hq : s.imported? m q = some d)
    (hd : s.Linked d ∨ d ∈ w.stack) :
    Woven (leave s m d) { w with frames := ⟨m, requests⟩ :: rest } := by
  have hm := htidy.mem (f := ⟨m, q :: requests⟩) (hframes ▸ List.mem_cons_self)
  unfold Woven at h ⊢
  rw [hframes] at h
  by_cases hdlinking : s.status? d = some .linking
  · refine Woven.lower h (hlinking m hm) ?_ (.single (htidy.requires hframes hq))
    exact hd.resolve_left (Store.not_linked_of_linking hdlinking)
  · rwa [leave_of_not_linking hdlinking]

/-- A walk that is through with a module: the component of the module is taken off the stack, or nothing
is. -/
inductive Pops (s : Store) (w : LinkWalk) (m : ModuleId) : Store × LinkWalk → Prop where
  | component {above below : List ModuleId} {s' : Store} :
      PopsComponent s.Requires s.index w.stack (w.frames.map LinkFrame.module) m above below →
      (∀ x ∈ above ++ [m], s'.status? x = some .linked) → Pops s w m (s', { w with stack := below })
  | nothing {s' : Store} : Pops s w m (s', w)

theorem Woven.conclude (h : Woven s { w with frames := ⟨m, []⟩ :: w.frames })
    (htidy : Tidy s { w with frames := ⟨m, []⟩ :: w.frames })
    (hl : Linkage s (w.tourAt m :: L.map LinkWalk.tour)) (hclosed : s.LinkClosed) :
    Pops s w m (LinkWalk.conclude s w m) ∧ Woven (LinkWalk.conclude s w m).1 (LinkWalk.conclude s w m).2 := by
  obtain ⟨above, below, hstack, hbelow, hmet, -, hbottom⟩ := stacked_head htidy.stacked
  replace hstack : w.stack = above ++ m :: below := hstack
  have hlinking : ∀ x ∈ w.stack, s.status? x = some .linking := hl.linking _ List.mem_cons_self
  have hm := hlinking m (by simp [hstack])
  have hsame := (conclude_linkage hl).1.same
  have hwoven : EcmaModules.Woven s.Requires s.index s.earliest (above ++ m :: below)
      (m :: w.frames.map LinkFrame.module) := by
    rw [← hstack]
    exact h
  by_cases hroot : s.earliest m = s.index m
  · have hnot : m ∉ above := fun hmem ↦
      (List.nodup_append.1 hwoven.nodup).2.2 m hmem m List.mem_cons_self rfl
    have hsome : ∀ x ∈ above ++ [m], (s.status? x).isSome := fun x hx ↦ by
      rw [hlinking x (hstack ▸ (hwoven.mem_top_iff.1 hx).1)]
      rfl
    have hpoints : ∀ x, (LinkWalk.conclude s w m).1.points? x = s.points? x := fun x ↦ by
      rw [conclude_of_root hm hstack hnot hroot, Store.points?_foldl_setStatus]
    have hpops : PopsComponent s.Requires s.index w.stack (w.frames.map LinkFrame.module) m above below := by
      have hfence : ∀ x ∈ above ++ [m], ∀ d, s.Requires x d →
          s.Linked d ∨ d ∈ above ++ m :: below ∧ s.index m ≤ s.index d := fun x hx d hd ↦ by
        rw [← hroot, ← hstack]
        exact hmet x hx d hd
      rw [hstack]
      exact hwoven.popsComponent hfence hclosed fun x hx ↦
        Store.not_linked_of_linking (hlinking x (hstack ▸ hx))
    have hkept : Woven (LinkWalk.conclude s w m).1 { w with stack := below } :=
      Woven.same hwoven.pop hsame fun x _ ↦ hpoints x
    rw [conclude_of_root hm hstack hnot hroot] at hkept ⊢
    refine ⟨.component hpops fun x hx ↦ ?_, hkept⟩
    exact Store.status?_foldl_setStatus_of_mem hx s (hsome x hx)
  · have hdropped := hwoven.drop hroot
    rw [← hstack] at hdropped
    rcases hframes : w.frames with _ | ⟨parent, rest⟩
    · -- the first module of the path leads back to no earlier one
      have hzero : s.index m = 0 := hbottom <| by
        replace hbelow : s.Stacked w.stack w.frames below := hbelow
        rw [hframes] at hbelow
        cases hbelow
        rfl
      have hle := htidy.low m (show m ∈ w.stack by simp [hstack])
      rw [hzero, Nat.le_zero] at hle
      exact absurd (hle.trans hzero.symm) hroot
    · rw [hframes] at hdropped
      have hparent := hlinking _ (hdropped.mem parent.module List.mem_cons_self)
      have hearlier := (List.pairwise_cons.1 hwoven.path_sorted).1 parent.module (by simp [hframes])
      have hleads : Relation.ReflTransGen s.Requires parent.module m :=
        hwoven.above _ (by simp [hframes]) m (by simp) hearlier.le
      have hlowered := Woven.lower hdropped hparent (by simp [hstack]) hleads
      rw [leave_of_linking hm] at hlowered
      rw [conclude_of_earliest_ne hm hroot hframes]
      refine ⟨.nothing, ?_⟩
      unfold Woven
      rwa [hframes]

end LinkWalk

/-- The modules of a walk are not those of a walk that began before. -/
theorem Linkage.beneath {u : LinkWalk} (hl : Linkage s ((w :: L).map LinkWalk.tour)) (hu : u ∈ L)
    (hx : x ∈ u.stack) : s.status? x = some .linking ∧ x ∉ w.stack := by
  have hnodup : (w.stack ++ L.flatMap (·.stack)).Nodup := by
    simpa [List.flatMap_map, LinkWalk.tour] using hl.nodup
  refine ⟨hl.linking u.tour (List.mem_cons_of_mem _ (List.mem_map_of_mem hu)) x hx, fun hmem ↦ ?_⟩
  exact (List.nodup_append.1 hnodup).2.2 x hmem x (List.mem_flatMap.2 ⟨u, hu, hx⟩) rfl

/-- What a loaded module leads to, it leads to after a change that is nothing to linking. -/
theorem Store.Skirts.leads_of (h : s.Skirts s') (hr : s.Rounded) (hx : s.Old x)
    (hy : Relation.ReflTransGen s.Requires x y) : Relation.ReflTransGen s'.Requires x y ∧ s.Old y := by
  induction hy with
  | refl => exact ⟨.refl, hx⟩
  | tail _ hyz ih => exact ⟨ih.1.tail ((h.requires ih.2).2 hyz), hr.requires ih.2 hyz⟩

/-! ## Steps of the machine -/

namespace Machine

variable {M M' : Machine}

/-- What is known of the stacks of the walks that link. -/
def Interwoven (M : Machine) : Prop := ∀ w ∈ M.linkWalks, w.Woven M.store

theorem Interwoven.next {x : Store × Next} (hnext : M.next? = some x)
    (hn : ∀ w ∈ x.2.linkWalks, w.Woven x.1)
    (hrest : ∀ w ∈ M.rest.flatMap Frame.linkWalks, w.Woven x.1) : M.step.Interwoven := by
  intro w hw
  rw [step_of_next? hnext, linkWalks_apply] at hw
  rw [step_of_next? hnext, store_apply]
  exact (List.mem_append.1 hw).elim (hn w) (hrest w)

/-- A walk takes a step, while the others wait. -/
theorem Interwoven.walk (hw : M.Interwoven) (h : M.Interlinked) {w : LinkWalk} {out : Store × LinkStep}
    (hnext : M.next? = some (out.2.next out.1)) (hcontrol : M.control = .run (.linking w))
    (hadvances : w.Advances M.store out) : M.step.Interwoven := by
  have hwalks : M.linkWalks = w :: M.rest.flatMap Frame.linkWalks := by
    obtain ⟨s, control, fs⟩ := M
    obtain rfl : control = _ := hcontrol
    rfl
  have hlinking := h.linking
  have hlinkage := M.map_linkWalks ▸ h.upward.linkage
  have hr := h.charted.charts.rounded
  rw [hwalks] at hlinking hlinkage
  unfold Interwoven at hw
  rw [hwalks] at hw
  obtain ⟨hwoven, hrest⟩ := List.forall_mem_cons.1 hw
  have htidy := hlinking.tidy w List.mem_cons_self
  have hstack : ∀ x ∈ w.stack, M.store.status? x = some .linking :=
    hlinkage.linking w.tour List.mem_cons_self
  have hkeep : ∀ {s' : Store}, Same M.store s' →
      (∀ x, x ∉ w.stack → M.store.status? x = some .linking → s'.points? x = M.store.points? x) →
      ∀ u ∈ M.rest.flatMap Frame.linkWalks, u.Woven s' := fun hsame hpoints u hu ↦
    (hrest u hu).same hsame fun x hx ↦
      have ⟨hlinking, hout⟩ := hlinkage.beneath hu hx
      hpoints x hout hlinking
  have hself := (Aside.refl M.store).steady.toSame
  cases hadvances with
  | done _ => exact .next hnext (by rintro _ ⟨⟩) (hkeep hself fun _ _ _ ↦ rfl)
  | @environment s' m rest hframes hinit =>
    have hlevel := (M.store.initializeEnvironment_furnishing m).level
    rw [hinit] at hlevel
    refine .next hnext ?_ (hkeep hlevel.toSame fun x _ _ ↦ hlevel.points x)
    intro u hu
    obtain rfl := List.mem_singleton.1 hu
    have hkept := hwoven.same hlevel.toSame fun x _ ↦ hlevel.points x
    unfold LinkWalk.Woven at hkept ⊢
    rwa [hframes] at hkept
  | @broken s' m rest e hframes hinit =>
    have hlevel := (M.store.initializeEnvironment_furnishing m).level
    rw [hinit] at hlevel
    have hlinkage' : Linkage s' ((w :: M.rest.flatMap Frame.linkWalks).map LinkWalk.tour) :=
      hlinkage.keep fun _ _ x _ hx ↦ (hlevel.status x).trans hx
    have hsame := (LinkWalk.unlink_inside (w := w) hlinkage' rfl).1.same
    refine .next hnext (by rintro _ ⟨⟩) (hkeep (hlevel.toSame.trans hsame) fun x _ _ ↦ ?_)
    exact (Store.points?_foldl_setStatus _ _ _ x).trans (hlevel.points x)
  | @absent m q requests rest hframes _ =>
    refine .next hnext ?_ (hkeep hself fun _ _ _ ↦ rfl)
    intro u hu
    obtain rfl := List.mem_singleton.1 hu
    unfold LinkWalk.Woven at hwoven ⊢
    rwa [hframes] at hwoven
  | @enter m d q requests rest hframes hq hd =>
    have hsame := (LinkWalk.enter_inside hd w.index).same
    refine .next hnext ?_ (hkeep hsame fun x _ hx ↦ LinkWalk.points?_enter_of_ne ?_ w.index)
    · intro u hu
      obtain rfl := List.mem_singleton.1 hu
      exact hwoven.enter htidy hstack hframes hq hd
    · rintro rfl
      exact absurd (hd.symm.trans hx) (by simp)
  | @meet m d q requests rest hframes hq hd =>
    have hm := htidy.mem (f := ⟨m, q :: requests⟩) (hframes ▸ List.mem_cons_self)
    have hrequires := htidy.requires hframes hq
    have hold := hr.requires (Store.old_of_linking (hstack m hm)) hrequires
    have hsame := (LinkWalk.leave_inside (hstack m hm) d).same
    refine .next hnext ?_ (hkeep hsame fun x hx _ ↦ LinkWalk.points?_leave_of_ne ?_ d)
    · intro u hu
      obtain rfl := List.mem_singleton.1 hu
      exact hwoven.meet htidy hstack hframes hq (hlinking.linked_or_mem hm hrequires hold hd)
    · rintro rfl
      exact hx hm

theorem linkWalks_of_setUp {r : Result} {m : ModuleId} {w : LinkWalk} {fs : List Frame}
    (hcontrol : M.control = .give r) (hframes : M.frames = .setUp m w :: fs) :
    M.linkWalks = { w with frames := ⟨m, []⟩ :: w.frames } :: fs.flatMap Frame.linkWalks := by
  obtain ⟨s, control, frames⟩ := M
  obtain rfl : control = _ := hcontrol
  obtain rfl : frames = _ := hframes
  rfl

/-- A walk is through with a module whose body has taken the steps that belong to its environment. -/
theorem Interwoven.concludes (hw : M.Interwoven) (h : M.Interlinked) {r : Result} {m : ModuleId}
    {w : LinkWalk} {fs : List Frame} (hcontrol : M.control = .give r) (hframes : M.frames = .setUp m w :: fs) :
    w.Pops M.store m (w.conclude M.store m) ∧ (w.conclude M.store m).2.Woven (w.conclude M.store m).1 := by
  have hwalks := linkWalks_of_setUp hcontrol hframes
  have hlinking := h.linking
  have hlinkage := M.map_linkWalks ▸ h.upward.linkage
  rw [hwalks] at hlinking hlinkage
  exact (hw _ (hwalks ▸ List.mem_cons_self)).conclude (hlinking.tidy _ List.mem_cons_self) hlinkage
    hlinking.closed

/-- The body of a module has taken the steps that belong to its environment. -/
theorem Interwoven.setUp (hw : M.Interwoven) (h : M.Interlinked) {r : Result} {m : ModuleId}
    {w : LinkWalk} {fs : List Frame} {x : Store × Next} (hnext : M.next? = some x)
    (hcontrol : M.control = .give r) (hframes : M.frames = .setUp m w :: fs)
    (hresumes : w.Resumes M.store r m x) : M.step.Interwoven := by
  have hconcluded := (hw.concludes h hcontrol hframes).2
  have hwalks := linkWalks_of_setUp hcontrol hframes
  have hrestFrames : M.rest = fs := by
    obtain ⟨s, control, frames⟩ := M
    obtain rfl : control = _ := hcontrol
    obtain rfl : frames = _ := hframes
    rfl
  have hlinking := h.linking
  have hlinkage := M.map_linkWalks ▸ h.upward.linkage
  rw [hwalks] at hlinking hlinkage
  unfold Interwoven at hw
  rw [hwalks] at hw
  obtain ⟨-, hrest⟩ := List.forall_mem_cons.1 hw
  have htidy := hlinking.tidy _ List.mem_cons_self
  cases hresumes with
  | done _ =>
    have hsame := (LinkWalk.conclude_linkage hlinkage).1.same
    have hconcludes := htidy.conclude hlinkage
    refine .next hnext ?_ fun u hu ↦ ?_
    · intro u hu
      obtain rfl := List.mem_singleton.1 hu
      exact hconcluded
    · rw [hrestFrames] at hu
      exact (hrest u hu).same hsame fun x hx ↦ hconcludes.points x (hlinkage.beneath hu hx).2
  | failed _ =>
    have hsame := (LinkWalk.unlink_inside (w := { w with frames := ⟨m, []⟩ :: w.frames }) hlinkage rfl).1.same
    refine .next hnext (by rintro _ ⟨⟩) fun u hu ↦ ?_
    rw [hrestFrames] at hu
    exact (hrest u hu).same hsame fun x _ ↦ Store.points?_foldl_setStatus _ _ _ x

/-- One step. -/
theorem Interwoven.step (hw : M.Interwoven) (h : M.Interlinked) (hP : M.LinksApart M') :
    M.step.Interwoven := by
  rcases hnext : M.next? with _ | x
  · rwa [step_of_next?_eq_none hnext]
  have hlinkage := M.map_linkWalks ▸ h.upward.linkage
  have hr := h.charted.charts.rounded
  cases h.proceeds hP hnext with
  | @link m x hcontrol hbegins =>
    have hwalks : M.linkWalks = M.rest.flatMap Frame.linkWalks := by
      obtain ⟨s, control, fs⟩ := M
      obtain rfl : control = _ := hcontrol
      rfl
    rw [hwalks] at hlinkage
    have hrest : ∀ u ∈ M.rest.flatMap Frame.linkWalks, u.Woven M.store := fun u hu ↦ hw u (hwalks ▸ hu)
    cases hbegins with
    | refused message _ =>
      have hsteady := (Aside.throw M.store .typeError message).steady
      exact .next hnext (by rintro _ ⟨⟩) fun u hu ↦
        (hrest u hu).same hsteady.toSame fun x _ ↦ hsteady.points x
    | enter hm =>
      refine .next hnext ?_ fun u hu ↦ ?_
      · intro u hu
        obtain rfl := List.mem_singleton.1 hu
        exact .start hm
      · refine (hrest u hu).same (LinkWalk.enter_inside hm 0).same fun x hx ↦ ?_
        refine LinkWalk.points?_enter_of_ne ?_ 0
        rintro rfl
        have hlinking := hlinkage.linking u.tour (List.mem_map_of_mem hu) x hx
        exact absurd (hm.symm.trans hlinking) (by simp)
    | linked _ =>
      refine .next hnext ?_ hrest
      intro u hu
      obtain rfl := List.mem_singleton.1 hu
      exact .empty _
  | walk hcontrol hadvances => exact hw.walk h hnext hcontrol hadvances
  | setUp hcontrol hframes hresumes => exact hw.setUp h hnext hcontrol hframes hresumes
  | beside hskirts _ hnone hsame =>
    refine .next hnext (fun u hu ↦ absurd (hnone ▸ hu) List.not_mem_nil) fun u hu ↦ ?_
    rw [← hsame] at hu
    have hlinking : ∀ x ∈ u.stack, M.store.status? x = some .linking :=
      hlinkage.linking u.tour (List.mem_map_of_mem hu)
    exact (hw u hu).keep (fun x hx ↦ hskirts.points x (hlinking x hx)) fun x hx y hy ↦
      (hskirts.leads_of hr (Store.old_of_linking (hlinking x hx)) hy).1

end Machine

/-! ## Runs -/

namespace State

variable {st st' : State}

/-- What is known of the stacks of the walks that link. -/
def Interwoven : State → Prop
  | .idle _ => True
  | .busy _ M => M.Interwoven

theorem Interwoven.turn (hw : st.Interwoven) (h : st.Interlinked) (ht : Turn Machine.LinksApart st st') :
    st'.Interwoven := by
  cases ht with
  | @call s a st' ha =>
    cases a with
    | namespaceOf m phase =>
      obtain rfl := Option.some.inj ha
      trivial
    | settle label c =>
      obtain ⟨p, -, rfl⟩ := Option.map_eq_some_iff.1 ha
      trivial
    | job =>
      simp only [Act.begin] at ha
      split at ha
      · contradiction
      · obtain rfl := Option.some.inj ha
        rintro _ ⟨⟩
    | _ =>
      obtain rfl := Option.some.inj ha
      rintro _ ⟨⟩
  | step hP => exact Machine.Interwoven.step hw h hP
  | @consult a M q s hq hs =>
    have hsteady := hs.aside.steady
    exact fun w hmem ↦ (hw w hmem).same hsteady.toSame fun x _ ↦ hsteady.points x
  | @answer a M q as hq =>
    obtain ⟨s, control, fs⟩ := M
    obtain rfl : control = _ := Machine.control_of_question? hq
    exact hw
  | finish => trivial

theorem Interwoven.turns {s : Store} (h : (State.idle s).Interlinked)
    (ht : Turns Machine.LinksApart (.idle s) st) : st.Interwoven := by
  induction ht with
  | refl => trivial
  | tail hst ht ih => exact ih.turn (h.turns hst) ht

end State

end EcmaModules
