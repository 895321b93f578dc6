import EcmaModules.Proofs.Composing

/-!
# Walks that leave nobody behind

A walk that fails marks the modules on its stack, and nobody else. That does no harm if whoever waits
for one of them is on the stack as well, and so it is when all requests are for evaluation. Nobody
knows a module that is entered. A module comes to wait for one on the stack only when the walk is at
it; from then on it is known to lead back to that one, and is taken off the stack with it, or before
it never.

What is kept about a walk for that is how its stack is laid out, as for components, but with who waits
for whom in place of who requests whom. So it does not matter whether everything was loaded, or who
comes to stand for whom.
-/

namespace EcmaModules

open EvaluationWalk (await leadsBack detach push)

/-! ## The walk -/

/-- Whoever waits for a module on the stack of the walk is on it, and is known to lead back to it. -/
structure Tour.Sealed (s : Store) (τ : Tour) : Prop where
  laid : Laid s (fun x y ↦ x ∈ s.parents y) τ.path τ.walk.stack
  sorted : τ.walk.stack.Pairwise fun x y ↦ s.depth y < s.depth x
  bound : ∀ x ∈ τ.walk.stack, s.depth x < τ.walk.index
  low : ∀ x ∈ τ.walk.stack, s.low x ≤ s.depth x
  closed : ∀ y ∈ τ.walk.stack, ∀ x ∈ s.parents y, x ∈ τ.walk.stack

/-- The module is where it was on the stack of a walk, and known to the same modules. -/
structure SourceText.Stays (r r' : SourceText) : Prop where
  index : r.status.isWalked = true → r'.dfsIndex = r.dfsIndex
  ancestor : r.status.isWalked = true → r'.dfsAncestorIndex ≤ r.dfsAncestorIndex
  asyncParents : r'.asyncParents = r.asyncParents

theorem SourceText.Stays.refl (r : SourceText) : r.Stays r :=
  ⟨fun _ ↦ rfl, fun _ ↦ Nat.le_refl _, rfl⟩

theorem SourceText.Stays.of_outline {r r' : SourceText} (h : r'.outline = r.outline) : r.Stays r' :=
  ⟨(SourceText.Rests.of_outline h).index, (SourceText.Rests.of_outline h).ancestor,
    (congrArg (·.asyncParents) h :)⟩

namespace Store

/-- The modules stay where they are on the stacks of walks. -/
def Stays : Store → Store → Prop := Each SourceText.Stays

theorem Stays.modifySource (s : Store) (m : ModuleId) {f : SourceText → SourceText}
    (hf : ∀ r : SourceText, r.Stays (f r)) : s.Stays (s.modifySource m f) :=
  Each.modifySource .refl s m fun r _ ↦ hf r

theorem Stays.detach (s : Store) (w : EvaluationWalk) (m : ModuleId) :
    s.Stays (EvaluationWalk.detach s w m) := by
  unfold EvaluationWalk.detach
  split
  · exact modifySource s m fun _ ↦ ⟨fun _ ↦ rfl, fun _ ↦ Nat.le_refl _, rfl⟩
  · exact Each.refl .refl s

theorem Stays.holdModule (s : Store) (m : ModuleId) : s.Stays (s.holdModule m) :=
  modifySource s m fun _ ↦ ⟨fun _ ↦ rfl, fun _ ↦ Nat.le_refl _, rfl⟩

theorem Stays.startAsync (s : Store) (m : ModuleId) : s.Stays (s.startAsync m).2 := fun x ↦ by
  have hmodules : (s.startAsync m).2.modules = (s.holdModule m).modules := modules_react _ _ _
  exact source?_congr hmodules x ▸ holdModule s m x

theorem Stays.lowerAncestor (s : Store) (m : ModuleId) (i : Nat) :
    s.Stays (s.lowerAncestor m i) :=
  modifySource s m fun _ ↦ ⟨fun _ ↦ rfl, fun _ ↦ Nat.min_le_left _ _, rfl⟩

theorem depth_await (s : Store) (m d x : ModuleId) : (await s m d).depth x = s.depth x := by
  have hsame : ∀ (s : Store) (m : ModuleId) (f : SourceText → SourceText),
      (∀ r, (f r).dfsIndex = r.dfsIndex) → (s.modifySource m f).depth x = s.depth x := by
    intro s m f hf
    unfold depth
    rw [source?_modifySource]
    split
    · rcases s.source? x with _ | r
      · rfl
      · exact hf r
    · rfl
  rcases EvaluationWalk.await_cases s m d with h | ⟨_, _, _, _, _, _, h⟩
  · rw [h]
  · rw [h, hsame, hsame]
    all_goals exact fun _ ↦ rfl

end Store

namespace Tour.Sealed

variable {s s' : Store} {τ τ' : Tour} {goal : EvaluationGoal} {st : Stance} {w : EvaluationWalk}
  {d m : ModuleId} {f : EvaluationFrame} {rest : List EvaluationFrame}

/-- The walk has nothing on its stack yet. -/
theorem start (hpath : τ.path = []) (hstack : τ.walk.stack = []) : τ.Sealed s := by
  refine ⟨?_, ?_, ?_, ?_, ?_⟩ <;> simp [hpath, hstack]
  exact .nil

/-- The walk goes on with the same path. -/
theorem turn (h : τ.Sealed s) (hpath : τ'.path = τ.path)
    (hwalk : τ'.walk.stack = τ.walk.stack ∧ τ'.walk.index = τ.walk.index) : τ'.Sealed s := by
  obtain ⟨hstack, hindex⟩ := hwalk
  constructor
  · rw [hpath, hstack]
    exact h.laid
  · rw [hstack]
    exact h.sorted
  · rw [hstack, hindex]
    exact h.bound
  · rw [hstack]
    exact h.low
  · rw [hstack]
    exact h.closed

/-- The modules on the stack stay where they are. -/
theorem stays (h : τ.Sealed s) (hs : s.Stays s')
    (hwalked : ∀ x ∈ τ.walk.stack, ∃ r, s.source? x = some r ∧ r.status = .evaluating) :
    τ.Sealed s' := by
  have heach : ∀ x ∈ τ.walk.stack, s'.depth x = s.depth x ∧ s'.low x ≤ s.low x ∧
      s'.parents x = s.parents x := fun x hx ↦ by
    obtain ⟨r, hr, hst⟩ := hwalked x hx
    obtain ⟨r', hr', hstays⟩ := Store.Each.after hs hr
    have hw : r.status.isWalked = true := by rw [hst]; rfl
    refine ⟨?_, ?_, ?_⟩
    · rw [Store.depth, Store.depth, hr', hr]
      exact hstays.index hw
    · rw [Store.low, Store.low, hr', hr]
      exact hstays.ancestor hw
    · rw [Store.parents, Store.parents, hr', hr]
      exact hstays.asyncParents
  refine ⟨h.laid.mono (fun x _ y hy hxy ↦ ?_) (fun x hx ↦ (heach x hx).2.1) fun x hx ↦ (heach x hx).1,
    h.sorted.imp_of_mem fun {x y} hx hy hlt ↦ ?_, fun x hx ↦ ?_, fun x hx ↦ ?_, fun y hy x hx ↦ ?_⟩
  · exact (heach y hy).2.2 ▸ hxy
  · rwa [(heach x hx).1, (heach y hy).1]
  · rw [(heach x hx).1]
    exact h.bound x hx
  · rw [(heach x hx).1]
    exact (heach x hx).2.1.trans (h.low x hx)
  · exact h.closed y hy x ((heach y hy).2.2 ▸ hx)

/-- The module on top of the path comes to wait for another one. If that is on the stack, it is known
to lead back to it. -/
theorem await {path : List ModuleId} (h : τ.Sealed s) (hnodup : τ.walk.stack.Nodup)
    (hpath : τ.path = m :: path) (hlow : d ∈ τ.walk.stack → s.low m ≤ s.depth d) :
    τ.Sealed (await s m d) := by
  have hdepth := s.depth_await m d
  have hlow' := s.low_await m d
  have hm : m ∈ τ.walk.stack := h.laid.subset (hpath ▸ List.mem_cons_self)
  constructor
  · have hlaid := h.laid
    rw [hpath] at hlaid ⊢
    refine (hlaid.head hnodup fun x _ y hy hxy ↦ ?_).mono (fun _ _ _ _ hxy ↦ hxy)
      (fun x _ ↦ (hlow' x).le) fun x _ ↦ hdepth x
    refine (Store.mem_parents_await hxy).imp id ?_
    rintro ⟨rfl, rfl⟩
    exact ⟨rfl, hlow hy⟩
  · exact h.sorted.imp fun {x y} hlt ↦ by rwa [hdepth, hdepth]
  · exact fun x hx ↦ (hdepth x).symm ▸ h.bound x hx
  · exact fun x hx ↦ by
      rw [hdepth, hlow']
      exact h.low x hx
  · intro y hy x hx
    rcases Store.mem_parents_await hx with hx | ⟨rfl, -⟩
    · exact h.closed y hy x hx
    · exact hm

/-- The walk goes on with the module below the one that it is through with, which leads back at least
as far. -/
theorem through (h : Tour.Sealed s ⟨goal, .through d, w⟩) (hf : w.frames = f :: rest)
    (hlow : s.low f.module ≤ s.low d) : Tour.Sealed s ⟨goal, .here, w⟩ := by
  have hlaid := h.laid
  rw [show Tour.path ⟨goal, .through d, w⟩ = d :: f.module :: rest.map (·.module) by
    simp [Tour.path, Stance.top, hf]] at hlaid
  refine ⟨?_, h.sorted, h.bound, h.low, h.closed⟩
  rw [show Tour.path ⟨goal, .here, w⟩ = f.module :: rest.map (·.module) by
    simp [Tour.path, Stance.top, hf]]
  exact hlaid.merge h.sorted h.low hlow

/-- The walk is back from a module on its stack. -/
theorem leaveBack {q : SourceText} (h : Tour.Sealed s ⟨goal, st, w⟩)
    (hst : st = .back d ∨ st = .through d ∧ s.isComponentRoot d = false)
    (hwalked : ∀ x ∈ w.stack, ∃ r, s.source? x = some r ∧ r.status = .evaluating)
    (hnodup : w.stack.Nodup) (hf : w.frames = f :: rest) (hq : s.source? d = some q) :
    Tour.Sealed (EvaluationWalk.await (s.lowerAncestor f.module q.dfsAncestorIndex) f.module d)
      ⟨goal, .here, w⟩ := by
  have hlowered := h.stays (.lowerAncestor s f.module q.dfsAncestorIndex) hwalked
  set s₁ := s.lowerAncestor f.module q.dfsAncestorIndex with hs₁
  have hlow : s₁.low f.module ≤ s₁.low d := by
    have hd : s.low d = q.dfsAncestorIndex := by
      rw [Store.low, hq]
      rfl
    rw [hs₁, Store.low_lowerAncestor, Store.low_lowerAncestor, if_pos rfl, hd]
    split <;> omega
  have hhere : Tour.Sealed s₁ ⟨goal, .here, w⟩ := by
    rcases hst with rfl | ⟨rfl, -⟩
    · exact hlowered.turn rfl ⟨rfl, rfl⟩
    · exact hlowered.through hf hlow
  have htop : Tour.path ⟨goal, .here, w⟩ = f.module :: rest.map (·.module) := by
    simp [Tour.path, Stance.top, hf]
  exact hhere.await hnodup htop fun hd ↦ hlow.trans (hhere.low d hd)

/-- The walk enters a module that nobody waits for. -/
theorem enter {r : SourceText} {t t' : Traversal} (h : Tour.Sealed s ⟨goal, .coming d t, w⟩)
    (hd : s.source? d = some r) (hnot : d ∉ w.stack) (hr : r.status.isSearched = false) :
    Tour.Sealed (push s w d t').1 ⟨goal, .here, (push s w d t').2⟩ := by
  set s' := (push s w d t').1
  have hself : s'.source? d = some (r.entered t' w.index) := by
    rw [show s'.source? d = _ from Store.source?_modifySource s d _ d, if_pos rfl, hd]
    rfl
  have hne : ∀ {x}, x ∈ w.stack → s'.source? x = s.source? x := fun {x} hx ↦ by
    have hxd : x ≠ d := fun hxd ↦ hnot (hxd ▸ hx)
    rw [show s'.source? x = _ from Store.source?_modifySource s d _ x, if_neg hxd]
  have hdepth : ∀ x ∈ w.stack, s'.depth x = s.depth x := fun x hx ↦ by
    rw [Store.depth, Store.depth, hne hx]
  have hlow : ∀ x ∈ w.stack, s'.low x = s.low x := fun x hx ↦ by
    rw [Store.low, Store.low, hne hx]
  have hparents : ∀ x ∈ w.stack, s'.parents x = s.parents x := fun x hx ↦ by
    rw [Store.parents, Store.parents, hne hx]
  have hdself : s'.depth d = w.index := by
    rw [Store.depth, hself]
    rfl
  have hlself : s'.low d = w.index := by
    rw [Store.low, hself]
    rfl
  have hunknown : s'.parents d = [] := by
    rw [Store.parents, hself]
    cases hst : r.status <;> simp [hst, Status.isSearched] at hr <;> simp [SourceText.entered, hst]
  have hsplit : ∀ {P : ModuleId → Prop}, P d → (∀ x ∈ w.stack, P x) → ∀ x ∈ d :: w.stack, P x :=
    fun h0 h ↦ List.forall_mem_cons.2 ⟨h0, h⟩
  constructor
  · have hbelow : Laid s' (fun x y ↦ x ∈ s'.parents y) (w.frames.map (·.module)) w.stack :=
      h.laid.mono (fun x _ y hy hxy ↦ hparents y hy ▸ hxy) (fun x hx ↦ (hlow x hx).le) hdepth
    have hown : ∀ x ∈ [] ++ [d], ∀ y ∈ [] ++ d :: w.stack, x ∈ s'.parents y →
        s'.low d ≤ s'.depth y := by
      intro x hx y hy hxy
      obtain rfl := List.mem_singleton.1 hx
      rcases List.mem_cons.1 hy with rfl | hy
      · rw [hunknown] at hxy
        exact absurd hxy List.not_mem_nil
      · rw [hparents y hy] at hxy
        exact absurd (h.closed y hy x hxy) hnot
    exact .cons hbelow hown
  · refine List.pairwise_cons.2 ⟨fun y hy ↦ ?_, h.sorted.imp_of_mem fun {x y} hx hy hlt ↦ ?_⟩
    · rw [hdself, hdepth y hy]
      exact h.bound y hy
    · rwa [hdepth x hx, hdepth y hy]
  · refine hsplit ?_ fun x hx ↦ ?_
    · rw [hdself]
      exact Nat.lt_succ_self _
    · rw [hdepth x hx]
      exact (h.bound x hx).trans (Nat.lt_succ_self _)
  · refine hsplit ?_ fun x hx ↦ ?_
    · rw [hdself, hlself]
    · rw [hdepth x hx, hlow x hx]
      exact h.low x hx
  · refine hsplit (fun x hx ↦ ?_) fun y hy x hx ↦ ?_
    · rw [hunknown] at hx
      exact absurd hx List.not_mem_nil
    · exact List.mem_cons_of_mem _ (h.closed y hy x (hparents y hy ▸ hx))

/-- The walk takes a component off its stack, and nobody in it waits for what is left. -/
theorem pop {above below : List ModuleId} (h : Tour.Sealed s ⟨goal, .through m, w⟩)
    (hnodup : w.stack.Nodup) (hstack : w.stack = above ++ m :: below)
    (hroot : s.isComponentRoot m = true) :
    Tour.Sealed (s.completeMembers m (above ++ [m]))
      ⟨goal, .back m, { w with stack := below }⟩ := by
  have hsplit : w.stack = (above ++ [m]) ++ below := by rw [hstack, List.append_cons]
  have hnodup' := hnodup
  rw [hsplit] at hnodup'
  have hmembers : (above ++ [m]).Nodup := (List.nodup_append.1 hnodup').1
  have hnot : ∀ x ∈ below, x ∉ above ++ [m] := fun x hx hmem ↦
    (List.nodup_append.1 hnodup').2.2 x hmem x hx rfl
  have hsub : below ⊆ w.stack := fun x hx ↦ hsplit ▸ List.mem_append_right _ hx
  have hsame : ∀ x ∈ below, (s.completeMembers m (above ++ [m])).source? x = s.source? x :=
    fun x hx ↦ by rw [s.source?_completeMembers hmembers, if_neg (hnot x hx)]
  have hdepth : ∀ x ∈ below, (s.completeMembers m (above ++ [m])).depth x = s.depth x :=
    fun x hx ↦ by rw [Store.depth, Store.depth, hsame x hx]
  have hlow : ∀ x ∈ below, (s.completeMembers m (above ++ [m])).low x = s.low x :=
    fun x hx ↦ by rw [Store.low, Store.low, hsame x hx]
  have hparents : ∀ x ∈ below, (s.completeMembers m (above ++ [m])).parents x = s.parents x :=
    fun x hx ↦ by rw [Store.parents, Store.parents, hsame x hx]
  -- the stack is laid out as before along the path below
  obtain ⟨seg, stack', hseg, hpath, hm⟩ := h.laid.of_cons
  have heq : above ++ m :: below = seg ++ m :: stack' := hstack.symm.trans hseg
  have habove : m ∉ above := fun hmem ↦
    (List.nodup_append.1 hmembers).2.2 m hmem m List.mem_cons_self rfl
  have hbelow : m ∉ below := fun hmem ↦ hnot m hmem (List.mem_append_right _ List.mem_cons_self)
  obtain ⟨rfl, -, rfl⟩ := (List.append_cons_inj_of_notMem habove hbelow).1 heq
  have hsorted := h.sorted
  rw [show (Tour.walk ⟨goal, .through m, w⟩).stack = _ from hsplit] at hsorted
  have hrootlow : s.low m = s.depth m := by
    unfold Store.isComponentRoot at hroot
    unfold Store.low Store.depth
    rcases hr : s.source? m with _ | r
    · rfl
    · simpa [hr] using hroot
  constructor
  · refine hpath.mono (fun x _ y hy hxy ↦ ?_) (fun x hx ↦ (hlow x hx).le) hdepth
    exact hparents y hy ▸ hxy
  · refine (List.pairwise_append.1 hsorted).2.1.imp_of_mem fun {x y} hx hy hlt ↦ ?_
    rwa [hdepth x hx, hdepth y hy]
  · exact fun x hx ↦ (hdepth x hx).symm ▸ h.bound x (hsub hx)
  · exact fun x hx ↦ by
      rw [hlow x hx, hdepth x hx]
      exact h.low x (hsub hx)
  · intro y hy x hx
    rw [hparents y hy] at hx
    have hxw : x ∈ w.stack := h.closed y (hsub hy) x hx
    rw [hsplit] at hxw
    refine (List.mem_append.1 hxw).resolve_left fun hxm ↦ ?_
    -- it would lead back below the root of its component
    have hle := hm x hxm y (List.mem_append_right _ (List.mem_cons_of_mem _ hy)) hx
    have hlt := (List.pairwise_append.1 hsorted).2.2 m
      (List.mem_append_right _ List.mem_cons_self) y hy
    omega

end Tour.Sealed

/-! ## Who stands for a component -/

/-- Whoever stands for a module is over, or waits. -/
def Store.RootsSettle (s : Store) : Prop :=
  ∀ x c, s.root? x = some c → ∃ q, s.source? c = some q ∧ q.status.isSettling = true

namespace Store.RootsSettle

variable {s s' : Store}

theorem rests (h : s.RootsSettle) (hs : s.Rests s') : s'.RootsSettle := by
  intro x c hc
  rw [hs.root] at hc
  obtain ⟨q, hq, hsettling⟩ := h x c hc
  obtain ⟨q', hq', hrests⟩ := hs.each.after hq
  exact ⟨q', hq', (hrests.settling hsettling).1⟩

/-- A component is complete. -/
theorem completes {S S' : Scene} (h : S.store.RootsSettle) (hv : Valid S) (he : S.Eager)
    (hpop : S.Completes S') : S'.store.RootsSettle := by
  have hevolves := hpop.evolves hv he
  obtain ⟨goal, w, T, above, m, below, hT, ⟨hstack, -, -⟩, -, hstore⟩ := hpop
  have hmem : ∀ x ∈ above ++ [m], x ∈ w.stack := fun x hx ↦ by
    rw [hstack]
    simp only [List.mem_append, List.mem_cons, List.not_mem_nil, or_false] at hx ⊢
    exact hx.imp id .inl
  have hnodup : (above ++ [m]).Nodup := by
    have hstacked := hv.sound.stacked
    rw [hT] at hstacked
    refine List.Sublist.nodup ?_ (hstack ▸ (List.nodup_append.1 hstacked).1 :
      (above ++ m :: below).Nodup)
    exact (List.append_sublist_append_left above).2 (List.singleton_sublist.2 List.mem_cons_self)
  have hsource : ∀ x, S'.store.source? x = if x ∈ above ++ [m] then
      (S.store.source? x).map (SourceText.complete m) else S.store.source? x :=
    hstore ▸ S.store.source?_completeMembers hnodup m
  have hevaluating : ∀ x ∈ above ++ [m],
      ∃ r, S.store.source? x = some r ∧ r.status = .evaluating := fun x hx ↦
    he.evaluating hv (τ := ⟨goal, .through m, w⟩) (hT ▸ List.mem_cons_self) (hmem x hx)
  intro x c hc
  by_cases hx : x ∈ above ++ [m]
  · obtain ⟨r, hr, -⟩ := hevaluating x hx
    obtain rfl : m = c := by simpa [Store.root?, hsource, hx, hr, SourceText.complete] using hc
    have hself : m ∈ above ++ [m] := List.mem_append_right _ List.mem_cons_self
    obtain ⟨q, hq, hst⟩ := hevaluating m hself
    refine ⟨q.complete m, ?_, SourceText.isSettling_complete m hst⟩
    rw [hsource, if_pos hself, hq, Option.map_some]
  · have hc₀ : S.store.root? x = some c := by
      rwa [Store.root?, hsource, if_neg hx] at hc
    obtain ⟨q, hq, hsettling⟩ := h x c hc₀
    obtain ⟨q', hq', hq''⟩ := hevolves.after hq
    exact ⟨q', hq', (hq''.settling hsettling).1⟩

/-- A module that has been evaluated comes to stand for itself. -/
theorem detach (h : s.RootsSettle) (w : EvaluationWalk) (d : ModuleId) :
    (EvaluationWalk.detach s w d).RootsSettle := by
  have hstands : s.Stands (EvaluationWalk.detach s w d) := .detach s w d
  have hkeep : ∀ c q, s.source? c = some q → q.status.isSettling = true → ∃ q',
      (EvaluationWalk.detach s w d).source? c = some q' ∧ q'.status.isSettling = true := by
    intro c q hq hsettling
    obtain ⟨q', hq', hr⟩ := hstands.after hq
    exact ⟨q', hq', hr.status ▸ hsettling⟩
  intro x c hc
  by_cases hcond : s.status? d = some .evaluated ∧ x = d ∧ c = d
  · obtain ⟨hover, rfl, rfl⟩ := hcond
    obtain ⟨q, hq, hst⟩ := Store.source?_of_status? hover
    exact hkeep c q hq (by rw [hst]; rfl)
  · have hc₀ : s.root? x = some c := by
      unfold EvaluationWalk.detach at hc
      split at hc
      · next hover =>
        rw [Store.root?, Store.source?_modifySource] at hc
        split at hc
        · next hx =>
          refine absurd ⟨(by simpa using hover : _ ∧ _).1, hx, ?_⟩ hcond
          rcases hr : s.source? x with _ | r
          · simp [hr] at hc
          · simpa [hr, eq_comm] using hc
        · exact hc
      · exact hc
    obtain ⟨q, hq, hsettling⟩ := h x c hc₀
    exact hkeep c q hq hsettling

end Store.RootsSettle

/-- Every move keeps it that whoever stands for a module is over, or waits. -/
theorem Move.rootsSettle {mode : Mode} {S S' : Scene} (hmove : Move mode S S') (hv : Valid S)
    (he : S.Eager) (h : S.store.RootsSettle) : S'.store.RootsSettle := by
  rcases hmove.keeps_or_passes hv he with hs | ⟨m, root, -, -, hcap, -, -, hstore⟩ | hpop |
    ⟨goal, w, T, d, t, r, -, -, -, -, hstore⟩
  · exact h.rests hs.toRests
  · exact hstore ▸ h.rests (.newCapability hcap)
  · exact h.completes hv he hpop
  · rw [hstore]
    split
    · exact h.detach w d
    · exact h

/-! ## Scenes -/

/-- All requests are for evaluation, and the walk under way, if there is one, leaves nobody behind. -/
structure Scene.Enclosed (S : Scene) : Prop where
  valid : Valid S
  eager : S.Eager
  alone : S.Alone
  rootsSettle : S.store.RootsSettle
  walks : ∀ τ ∈ S.tours, τ.Sealed S.store

/-- Whoever waits for a module on the stack of a walk is on it as well. -/
theorem Scene.Enclosed.closed {S : Scene} (h : S.Enclosed) {τ : Tour} (hτ : τ ∈ S.tours) :
    S.store.Closed τ.walk.stack := fun y hy x hx ↦ .inl ((h.walks τ hτ).closed y hy x hx)

/-- Every move keeps the walk from leaving anybody behind. -/
theorem Move.sealed {mode : Mode} {S S' : Scene} (hmove : Move mode S S') (hmode : ¬mode.forces)
    (h : S.Enclosed) : ∀ τ ∈ S'.tours, τ.Sealed S'.store := by
  obtain ⟨hv, he, halone, hroots, hwalks⟩ := h
  have hs := hv.sound
  have hwalked : ∀ {τ}, τ ∈ S.tours → ∀ x ∈ τ.walk.stack,
      ∃ r, S.store.source? x = some r ∧ r.status = .evaluating := fun hτ x ↦ he.evaluating hv hτ
  have hstays : ∀ {s'}, S.store.Stays s' → ∀ τ ∈ S.tours, τ.Sealed s' := fun hstays τ hτ ↦
    (hwalks τ hτ).stays hstays (hwalked hτ)
  have hstep : ∀ {τ τ' : Tour} {T : List Tour} {s' : Store}, S.tours = τ :: T →
      (τ.Sealed S.store → τ'.Sealed s') → ∀ τ₀ ∈ τ' :: T, τ₀.Sealed s' := by
    intro τ τ' T s' hT hτ
    obtain ⟨s, T₀, F, X, G, J, H⟩ := S
    obtain rfl : T₀ = _ := hT
    obtain rfl := halone.tours_eq
    exact List.forall_mem_singleton.2 (hτ (hwalks τ List.mem_cons_self))
  have hend : ∀ {τ : Tour} {T : List Tour} {s' : Store}, S.tours = τ :: T →
      ∀ τ₀ ∈ T, τ₀.Sealed s' := by
    intro τ T s' hT
    obtain ⟨s, T₀, F, X, G, J, H⟩ := S
    obtain rfl : T₀ = _ := hT
    obtain rfl := halone.tours_eq
    simp
  cases hmove with
  | aside ha _ => exact hstays ((Store.Each.of_outline ha.outline).mono fun _ _ ↦ .of_outline)
  | note a r => exact hwalks
  | evaluate _ _ _ _ => exact List.forall_mem_singleton.2 (.start rfl rfl)
  | force _ _ _ _ _ hforces => exact absurd hforces.1 hmode
  | request hf _ =>
    exact hstep rfl fun hτ ↦ hτ.turn (by simp [Tour.path, Stance.top, hf]) ⟨rfl, rfl⟩
  | unloaded hf _ _ =>
    exact hstep rfl fun hτ ↦ hτ.turn (by simp [Tour.path, Stance.top, hf]) ⟨rfl, rfl⟩
  | synthetic _ => exact hstep rfl fun hτ ↦ hτ.turn rfl ⟨rfl, rfl⟩
  | @pass s goal w t T F X G J H d r hd ha _ =>
    refine hstep rfl fun hτ ↦ (hτ.stays ?_ (hwalked List.mem_cons_self)).turn rfl ⟨rfl, rfl⟩
    split
    · exact .detach s w d
    · exact Store.Each.refl .refl s
  | @enter s goal w t t' T F X G J H d r hd ha hnot _ =>
    refine hstep rfl fun hτ ↦ hτ.enter hd (fun hmem ↦ ?_) (he.status d r hd)
    obtain ⟨q, hq, hst⟩ := hwalked List.mem_cons_self d hmem
    obtain rfl := Option.some.inj (hd.symm.trans hq)
    obtain ⟨-, hstatus⟩ := SourceText.arrival_eq_enter ha
    simp [hst, Status.outline] at hstatus
  | leaveLast _ => exact hstep rfl fun hτ ↦ hτ.turn rfl ⟨rfl, rfl⟩
  | leaveBack hst hf hr hq hlead =>
    exact hstep rfl fun hτ ↦ hτ.leaveBack hst (hwalked List.mem_cons_self)
      (List.nodup_append.1 hs.stacked).1 hf hq
  | @leaveSearched s goal st w f rest T F X G J H d r q hst hf hr hq hlead hqs =>
    have := he.status d q hq
    simp [hqs, Status.isSearched] at this
  | @leaveOff s goal w f rest T F X G J H d r q hf hr hq hlead hqs herr =>
    refine hstep rfl fun hτ ↦ ?_
    have hhere : Tour.Sealed s ⟨goal, .here, w⟩ := hτ.turn rfl ⟨rfl, rfl⟩
    have htop : Tour.path ⟨goal, .here, w⟩ = f.module :: rest.map (·.module) := by
      simp [Tour.path, Stance.top, hf]
    refine hhere.await (List.nodup_append.1 hs.stacked).1 htop fun hmem ↦ ?_
    -- what stands for a component that is complete is not on the stack
    obtain ⟨p, hp, hst⟩ := hwalked List.mem_cons_self _ hmem
    rcases hc : q.cycleRoot with _ | c
    · rw [show s.cycleRoot d = d by simp [Store.cycleRoot, hq, hc]] at hp
      obtain rfl := Option.some.inj (hq.symm.trans hp)
      simp [leadsBack, hst] at hlead
    · rw [show s.cycleRoot d = c by simp [Store.cycleRoot, hq, hc]] at hp
      obtain ⟨p', hp', hsettling⟩ := hroots d c ((Store.root?_eq hq).trans hc)
      obtain rfl := Option.some.inj (hp.symm.trans hp')
      rw [hst] at hsettling
      contradiction
  | @hold s goal w m rest T F X G J H r hf hr hpos =>
    exact hstep rfl fun hτ ↦ (hτ.stays (.holdModule s m) (hwalked List.mem_cons_self)).turn
      (by simp [Tour.path, Stance.top, hf]) ⟨rfl, rfl⟩
  | run hf _ _ _ =>
    exact hstep rfl fun hτ ↦ hτ.turn (by simp [Tour.path, Stance.top, hf]) ⟨rfl, rfl⟩
  | @runAsync s goal w m rest T F X G J H r hf hr h0 hw =>
    exact hstep rfl fun hτ ↦ (hτ.stays (.startAsync s m) (hwalked List.mem_cons_self)).turn
      (by simp [Tour.path, Stance.top, hf]) ⟨rfl, rfl⟩
  | search hf =>
    have := ((he.tours _ List.mem_cons_self).frames _ (hf ▸ List.mem_cons_self)).1
    contradiction
  | ended _ _ => exact hstep rfl fun hτ ↦ hτ.turn rfl ⟨rfl, rfl⟩
  | pop hstack _ hroot =>
    exact hstep rfl fun hτ ↦ hτ.pop (List.nodup_append.1 hs.stacked).1 hstack hroot
  | done _ => exact hend rfl
  | fail _ _ _ _ => exact hend rfl
  | failed _ _ _ => exact hwalks
  | drop _ => exact hwalks
  | freedAsync _ => simp
  | _ => simp

/-- Every move keeps it. -/
theorem Move.enclosed {mode : Mode} {S S' : Scene} (hmove : Move mode S S') (hmode : ¬mode.forces)
    (h : S.Enclosed) : S'.Enclosed :=
  ⟨hmove.valid h.valid, hmove.eager h.valid h.eager, hmove.alone hmode h.alone,
    hmove.rootsSettle h.valid h.eager h.rootsSettle, hmove.sealed hmode h⟩

end EcmaModules
