import EcmaModules.Proofs.Cycles
import EcmaModules.Proofs.Interwoven

/-!
# The components that walks take off their stacks

When all requests are for evaluation, and bodies have nothing else evaluated, the walk of an evaluation
takes exactly the components of the graph off its stack, like one that links
(`EcmaModules.Proofs.Interwoven`). A module that is taken off gets the root of its component at that moment.
It may come to stand for itself later, so nothing is said here about the root that a module has then.
-/

namespace EcmaModules

open EvaluationWalk (await leadsBack detach push)

/-! ## Walks -/

/-- What is known of the stack of a walk. What it comes to is led to by the module on top of its path. -/
structure Tour.Woven (s : Store) (τ : Tour) : Prop where
  stack : EcmaModules.Woven s.Requests s.depth s.low τ.walk.stack τ.path
  asks : ∀ f ∈ τ.walk.frames, f.requests ⊆ (s.entries f.module).requests
  opens : ∀ x y, τ.Opens x y → s.Reaches x y

theorem Store.Dwells.reaches {s s' : Store} (h : s.Dwells s') {x y : ModuleId} (hxy : s.Reaches x y) :
    s'.Reaches x y :=
  Relation.ReflTransGen.mono (fun a b ⟨q, hq, hb⟩ ↦ ⟨q, h.entries a ▸ hq, h.grows a q b hb⟩) x y hxy

theorem Store.low_detach (s : Store) (w : EvaluationWalk) (d x : ModuleId) :
    (detach s w d).low x = s.low x := by
  unfold detach
  split
  · refine s.low_modifySource d ?_ x
    exact fun _ ↦ rfl
  · rfl

theorem Store.low_holdModule (s : Store) (m x : ModuleId) : (s.holdModule m).low x = s.low x := by
  refine s.low_modifySource m ?_ x
  exact fun _ ↦ rfl

theorem Store.low_startAsync (s : Store) (m x : ModuleId) : (s.startAsync m).2.low x = s.low x := by
  have hmodules : (s.startAsync m).2.modules = (s.holdModule m).modules := modules_react _ _ _
  rw [← s.low_holdModule m x, low, low, source?, source?, module?, module?, hmodules]

/-- What a module that a walk is at is known to lead back to is part of its outline. -/
theorem Store.low_of_outline {s s' : Store} (h : s'.outline = s.outline) {x : ModuleId} {r : SourceText}
    (hx : s.source? x = some r) (hw : r.status.isWalked = true) : s'.low x = s.low x := by
  have hx' : s'.outline x = some r.outline := by rw [h, Store.outline_eq_some hx]
  obtain ⟨r', hr', heq⟩ := Store.source?_of_outline hx'
  have hw' : r'.status.isWalked = true := by
    rw [← Status.isWalked_outline, ← SourceText.outline_status, heq, SourceText.outline_status,
      Status.isWalked_outline, hw]
  rw [Store.low, Store.low, hr', hx, Option.map_some, Option.map_some, ← SourceText.outline_dfsAncestorIndex hw,
    ← SourceText.outline_dfsAncestorIndex hw', heq]

namespace Tour.Woven

variable {s s' : Store} {τ τ' : Tour} {goal : EvaluationGoal} {st st' : Stance} {w : EvaluationWalk}
  {d m : ModuleId} {t : Traversal} {f : EvaluationFrame} {rest : List EvaluationFrame}

theorem start (s : Store) (goal : EvaluationGoal) (st : Stance) (htop : st.top = []) :
    Tour.Woven s ⟨goal, st, {}⟩ := by
  refine ⟨?_, nofun, ?_⟩
  · have hpath : Tour.path ⟨goal, st, {}⟩ = [] := by simp [Tour.path, htop]
    rw [hpath]
    exact .nil _ _ _
  · rintro x y ⟨-, f, rest, hf, -⟩
    contradiction

/-- The walk is where it was, and so are modules. -/
theorem dwells (h : τ.Woven s) (hs : s.Dwells s')
    (hwalked : ∀ x ∈ τ.walk.stack, ∃ r, s.source? x = some r ∧ r.status = .evaluating)
    (hlow : ∀ x ∈ τ.walk.stack, s'.low x = s.low x) : τ.Woven s' := by
  refine ⟨h.stack.congr (fun x hx ↦ ?_) hlow fun x _ y ↦ hs.reaches, fun f hf ↦ ?_, fun x y hxy ↦ ?_⟩
  · obtain ⟨r, hr, hst⟩ := hwalked x hx
    exact hs.depth hr (by rw [hst]; rfl)
  · rw [hs.entries]
    exact h.asks f hf
  · exact hs.reaches (h.opens x y hxy)

/-- The walk turns to something else. -/
theorem turn (h : Tour.Woven s ⟨goal, st, w⟩) (htop : st'.top = st.top)
    (hopens : ∀ x y, Tour.Opens ⟨goal, st', w⟩ x y → s.Reaches x y) : Tour.Woven s ⟨goal, st', w⟩ := by
  refine ⟨?_, h.asks, hopens⟩
  have hpath : Tour.path ⟨goal, st', w⟩ = Tour.path ⟨goal, st, w⟩ := by simp [Tour.path, htop]
  rw [hpath]
  exact h.stack

/-- The walk takes the next request. -/
theorem request {r : Request} {rs : List Request} (h : Tour.Woven s ⟨goal, .here, w⟩)
    (hf : w.frames = ⟨m, t, r :: rs⟩ :: rest) (hd : s.imported? m r = some d) (t' : Traversal) :
    Tour.Woven s ⟨goal, .coming d t', { w with frames := ⟨m, t, rs⟩ :: rest }⟩ := by
  have hasks : ∀ f ∈ w.frames, f.requests ⊆ (s.entries f.module).requests := h.asks
  rw [hf, List.forall_mem_cons] at hasks
  obtain ⟨hr, hrs⟩ := List.cons_subset.1 hasks.1
  refine ⟨?_, List.forall_mem_cons.2 ⟨hrs, hasks.2⟩, ?_⟩
  · have hpath : Tour.path ⟨goal, .coming d t', { w with frames := ⟨m, t, rs⟩ :: rest }⟩ =
        Tour.path ⟨goal, .here, w⟩ := by simp [Tour.path, Stance.top, hf]
    rw [hpath]
    exact h.stack
  · rintro x y ⟨hst, f, rest', hf', rfl⟩
    obtain ⟨rfl, -⟩ := List.cons.inj hf'
    rcases hst with ⟨_, hst⟩ | hst
    · obtain ⟨rfl, -⟩ := Stance.coming.inj hst
      exact .single ⟨r, hr, hd⟩
    · contradiction

/-- The walk is through with the requests of the module on top of its path. -/
theorem through (h : Tour.Woven s ⟨goal, .here, w⟩) (hf : w.frames = ⟨m, t, []⟩ :: rest)
    (hst : st'.top = [m]) : Tour.Woven s ⟨goal, st', { w with frames := rest }⟩ := by
  refine ⟨?_, fun f hf' ↦ h.asks f ?_, ?_⟩
  · have hpath : Tour.path ⟨goal, st', { w with frames := rest }⟩ = Tour.path ⟨goal, .here, w⟩ := by
      change st'.top ++ rest.map (·.module) = w.frames.map (·.module)
      rw [hst, hf]
      rfl
    rw [hpath]
    exact h.stack
  · exact hf ▸ List.mem_cons_of_mem _ hf'
  · rintro x y ⟨⟨_, heq⟩ | heq, -⟩ <;> rw [show st' = _ from heq] at hst <;> contradiction

/-- The walk enters a module. -/
theorem enter {t' : Traversal} (h : Tour.Woven s ⟨goal, .coming d t, w⟩)
    (hs : s.Dwells (push s w d t').1)
    (hwalked : ∀ x ∈ w.stack, ∃ r, s.source? x = some r ∧ r.status = .evaluating)
    (hbound : ∀ x ∈ w.stack, s.depth x < w.index) (hd : (s.source? d).isSome) (hnot : d ∉ w.stack) :
    Tour.Woven (push s w d t').1 ⟨goal, .here, (push s w d t').2⟩ := by
  obtain ⟨r, hr⟩ := Option.isSome_iff_exists.1 hd
  have hother : ∀ x ∈ w.stack, (push s w d t').1.source? x = s.source? x := fun x hx ↦ by
    have hne : x ≠ d := fun heq ↦ hnot (heq ▸ hx)
    exact (Store.source?_modifySource s d _ x).trans (if_neg hne)
  have hself : (push s w d t').1.source? d = some (r.entered t' w.index) := by
    rw [show (push s w d t').1.source? d = _ from Store.source?_modifySource s d _ d, if_pos rfl, hr]
    rfl
  have hdepth : (push s w d t').1.depth d = w.index := by
    rw [Store.depth, hself]
    rfl
  have hlow : (push s w d t').1.low d = w.index := by
    rw [Store.low, hself]
    rfl
  have hold := h.dwells hs hwalked fun x hx ↦ by rw [Store.low, Store.low, hother x hx]
  refine ⟨?_, List.forall_mem_cons.2 ⟨?_, hold.asks⟩, ?_⟩
  · refine hold.stack.push (fun x hx ↦ ?_) (hlow.trans hdepth.symm) fun m rest hpath ↦ ?_
    · rw [hdepth, Store.depth, hother x hx]
      exact hbound x hx
    · rcases hf : w.frames with _ | ⟨f, rest⟩
      · simp [Tour.path, Stance.top, hf] at hpath
      · obtain ⟨rfl, -⟩ : f.module = m ∧ _ := by simpa [Tour.path, Stance.top, hf] using hpath
        exact hold.opens _ _ ⟨.inl ⟨t, rfl⟩, f, rest, hf, rfl⟩
  · rw [hs.entries]
    exact List.Subset.refl _
  · rintro x y ⟨⟨_, hst⟩ | hst, -⟩ <;> contradiction

theorem low_leave (s : Store) (m d : ModuleId) (q : SourceText) (hq : s.source? d = some q) (x : ModuleId) :
    (await (s.lowerAncestor m q.dfsAncestorIndex) m d).low x = if x = m then min (s.low m) (s.low d) else s.low x := by
  have hd : s.low d = q.dfsAncestorIndex := by
    rw [Store.low, hq]
    rfl
  rw [Store.low_await, Store.low_lowerAncestor, hd]
  split
  · next hx => rw [hx]
  · rfl

/-- The walk is back at a module from one on its stack, or through with one that stays there. -/
theorem leave {q : SourceText} (h : Tour.Woven s ⟨goal, st, w⟩) (hf : w.frames = f :: rest)
    (hst : st = .back d ∨ st = .through d ∧ s.isComponentRoot d = false)
    (hd : d ∈ w.stack) (hq : s.source? d = some q)
    (hs : s.Dwells (await (s.lowerAncestor f.module q.dfsAncestorIndex) f.module d))
    (hwalked : ∀ x ∈ w.stack, ∃ r, s.source? x = some r ∧ r.status = .evaluating) :
    Tour.Woven (await (s.lowerAncestor f.module q.dfsAncestorIndex) f.module d) ⟨goal, .here, w⟩ := by
  have hpath : Tour.path ⟨goal, .here, w⟩ = f.module :: rest.map (·.module) := by
    simp [Tour.path, Stance.top, hf]
  -- whatever the walk was through with is off its path
  have hmet : EcmaModules.Woven s.Requests s.depth s.low w.stack (f.module :: rest.map (·.module)) ∧
      s.Reaches f.module d := by
    have hstack := h.stack
    rcases hst with rfl | ⟨rfl, hroot⟩
    · have hback : Tour.path ⟨goal, .back d, w⟩ = f.module :: rest.map (·.module) := by
        simp [Tour.path, Stance.top, hf]
      rw [hback] at hstack
      exact ⟨hstack, h.opens _ _ ⟨.inr rfl, f, rest, hf, rfl⟩⟩
    · have hthrough : Tour.path ⟨goal, .through d, w⟩ = d :: f.module :: rest.map (·.module) := by
        simp [Tour.path, Stance.top, hf]
      rw [hthrough] at hstack
      have hearlier := (List.pairwise_cons.1 hstack.path_sorted).1 f.module List.mem_cons_self
      refine ⟨hstack.drop fun heq ↦ ?_, ?_⟩
      · rw [Store.low, Store.depth, hq] at heq
        simp only [Store.isComponentRoot, hq, Option.map_some, Option.getD_some] at heq hroot
        simp [heq] at hroot
      · exact hstack.above _ (List.mem_cons_of_mem _ List.mem_cons_self) d hd hearlier.le
  have hlowered : EcmaModules.Woven s.Requests s.depth
      (await (s.lowerAncestor f.module q.dfsAncestorIndex) f.module d).low w.stack
      (f.module :: rest.map (·.module)) := by
    refine hmet.1.meet hd hmet.2 ?_ fun x _ hx ↦ ?_
    · rw [low_leave s f.module d q hq, if_pos rfl]
    · rw [low_leave s f.module d q hq, if_neg hx]
  refine ⟨?_, fun g hg ↦ ?_, ?_⟩
  · rw [hpath]
    refine hlowered.congr (fun x hx ↦ ?_) (fun _ _ ↦ rfl) fun x _ y ↦ hs.reaches
    obtain ⟨r, hr, hevaluating⟩ := hwalked x hx
    exact hs.depth hr (by rw [hevaluating]; rfl)
  · rw [hs.entries]
    exact h.asks g hg
  · rintro x y ⟨⟨_, hst⟩ | hst, -⟩ <;> contradiction

end Tour.Woven

/-! ## Components -/

namespace Closes

variable {s : Store} {goal : EvaluationGoal} {w : EvaluationWalk} {above below : List ModuleId} {m : ModuleId}

/-- The component is what each of its modules leads to, and is led to by. -/
theorem popsComponent (h : Closes s goal w above below m) (hw : Tour.Woven s ⟨goal, .through m, w⟩) :
    PopsComponent s.Requests s.depth w.stack (w.frames.map (·.module)) m above below := by
  have hwoven : EcmaModules.Woven s.Requests s.depth s.low w.stack (m :: w.frames.map (·.module)) := hw.stack
  rw [h.stack] at hwoven ⊢
  have hfence : ∀ x ∈ above ++ [m], ∀ d, s.Requests x d →
      ((s.source? d).isSome → (s.root? d).isSome) ∨ d ∈ above ++ m :: below ∧ s.depth m ≤ s.depth d := by
    rintro x hx d ⟨q, hq, hi⟩
    obtain ⟨y, hy, hleads⟩ := h.leads hx hq
    obtain rfl := Option.some.inj (hi.symm.trans hy)
    by_cases hd : d ∈ above ++ [m]
    · exact .inr (hwoven.mem_top_iff.1 hd)
    · exact .inl fun hsome ↦ (hleads hsome).resolve_right hd
  have hclosed : ∀ x d, ((s.source? x).isSome → (s.root? x).isSome) → s.Requests x d →
      (s.source? d).isSome → (s.root? d).isSome := fun x d hx hd ↦
    h.complete.root_of_reaches (hx (Store.source_of_requests hd)) (.single hd)
  refine hwoven.popsComponent hfence hclosed fun x hx hsettled ↦ ?_
  rw [← h.stack] at hx
  obtain ⟨r, hr, -⟩ := h.evaluating x hx
  have hroot := hsettled (Option.isSome_of_mem hr)
  rw [h.root_eq_none hx] at hroot
  contradiction

/-- The walk goes on with what is left of its stack. -/
theorem woven (h : Closes s goal w above below m) (hw : Tour.Woven s ⟨goal, .through m, w⟩) :
    Tour.Woven (s.completeMembers m (above ++ [m])) ⟨goal, .back m, { w with stack := below }⟩ := by
  have hwoven : EcmaModules.Woven s.Requests s.depth s.low w.stack (m :: w.frames.map (·.module)) := hw.stack
  rw [h.stack] at hwoven
  have hnot : ∀ x ∈ below, x ∉ above ++ [m] := fun x hx hmem ↦ by
    have hnodup := hwoven.nodup
    rw [List.append_cons] at hnodup
    exact (List.nodup_append.1 hnodup).2.2 x hmem x hx rfl
  have hsame : ∀ x ∈ below, (s.completeMembers m (above ++ [m])).source? x = s.source? x :=
    fun x hx ↦ by rw [h.source? x, if_neg (hnot x hx)]
  have hrequests : ∀ x y, s.Requests x y → (s.completeMembers m (above ++ [m])).Requests x y :=
    fun x y ⟨q, hq, hi⟩ ↦ ⟨q, (h.entries_eq x).symm ▸ hq, (h.imported?_eq x q).trans hi⟩
  refine ⟨?_, fun f hf ↦ ?_, fun x y hxy ↦ ?_⟩
  · refine hwoven.pop.congr (fun x hx ↦ ?_) (fun x hx ↦ ?_) fun x _ y ↦ ?_
    · rw [Store.depth, Store.depth, hsame x hx]
    · rw [Store.low, Store.low, hsame x hx]
    · exact Relation.ReflTransGen.mono hrequests x y
  · rw [h.entries_eq]
    exact hw.asks f hf
  · obtain ⟨hst, f, rest, hf, rfl⟩ := hxy
    obtain rfl : m = y := by
      rcases hst with ⟨_, hst⟩ | hst
      · contradiction
      · exact Stance.back.inj hst
    have hf : w.frames = f :: rest := hf
    have hmem : f.module ∈ w.frames.map (·.module) := by simp [hf]
    have hearlier := (List.pairwise_cons.1 hwoven.path_sorted).1 f.module hmem
    have hreaches := hwoven.above f.module (List.mem_cons_of_mem m hmem) m (by simp) hearlier.le
    exact Relation.ReflTransGen.mono hrequests _ _ hreaches

end Closes

/-! ## Moves -/

/-- Every move keeps what is known of the stack of the walk, if nothing is searched, there is one walk at a
time, and everything was loaded. -/
theorem Move.woven {mode : Mode} {S S' : Scene} (hmove : Move mode S S')
    (hmode : ¬mode.nests ∧ ¬mode.skips) (hv : Valid S) (he : S.Eager)
    (hrep : S.store.Represented) (hcomposed : Composed S.store S.tours)
    (h : ∀ τ ∈ S.tours, τ.Woven S.store) : ∀ τ ∈ S'.tours, τ.Woven S'.store := by
  obtain ⟨hnests, hskips⟩ := hmode
  rcases hmove.dwells hv he hrep with hs | hpop
  swap
  · obtain ⟨goal, w, T, above, m, below, hT, ⟨hstack, -, hroot⟩, hT', hstore⟩ := hpop
    obtain ⟨s, T₀, F, X, G, J, H⟩ := S
    obtain rfl : T₀ = _ := hT
    obtain rfl : T = [] :=
      List.eq_nil_of_length_eq_zero (Nat.le_zero.1 (Nat.le_of_succ_le_succ hcomposed.single))
    rw [hT', hstore]
    exact List.forall_mem_singleton.2
      ((hcomposed.closes hv he hstack hroot).woven (h _ List.mem_cons_self))
  have hwalked : ∀ τ ∈ S.tours, ∀ x ∈ τ.walk.stack,
      ∃ r, S.store.source? x = some r ∧ r.status = .evaluating :=
    fun τ hτ x ↦ he.evaluating hv hτ
  have hkeep : (∀ τ ∈ S.tours, ∀ x ∈ τ.walk.stack, S'.store.low x = S.store.low x) →
      ∀ τ ∈ S.tours, τ.Woven S'.store := fun hlow τ hτ ↦
    (h τ hτ).dwells hs (hwalked τ hτ) (hlow τ hτ)
  have hone : ∀ {τ T}, S.tours = τ :: T → T = [] := fun hT ↦ by
    have := hcomposed.single
    rw [hT] at this
    exact List.eq_nil_of_length_eq_zero (Nat.le_zero.1 (Nat.le_of_succ_le_succ this))
  have hstep : ∀ {τ τ' T}, S.tours = τ :: T → S'.tours = τ' :: T → τ'.Woven S'.store →
      ∀ τ ∈ S'.tours, τ.Woven S'.store := fun hT hT' hτ ↦ by
    rw [hT', hone hT]
    exact List.forall_mem_singleton.2 hτ
  have hend : ∀ {τ T}, S.tours = τ :: T → S'.tours = T → ∀ τ ∈ S'.tours, τ.Woven S'.store :=
    fun hT hT' ↦ by
      rw [hT', hone hT]
      exact List.forall_mem_nil _
  induction hmove with
  | @aside s s' T F X G J H ha hi =>
    refine hkeep fun τ hτ x hx ↦ ?_
    obtain ⟨r, hr, hst⟩ := hwalked τ hτ x hx
    exact Store.low_of_outline ha.outline hr (by rw [hst]; rfl)
  | note _ _ => exact h
  | evaluate _ _ _ _ => exact List.forall_mem_singleton.2 (.start _ _ _ rfl)
  | force _ _ _ _ _ hT =>
    obtain rfl := hT.2.resolve_right hnests
    exact List.forall_mem_singleton.2 (.start _ _ _ rfl)
  | request hf hd => exact hstep rfl rfl ((h _ List.mem_cons_self).request hf hd _)
  | unloaded _ _ hskip => exact absurd hskip hskips
  | synthetic _ =>
    refine hstep rfl rfl ((h _ List.mem_cons_self).turn rfl ?_)
    rintro x y ⟨⟨_, hst⟩ | hst, -⟩ <;> contradiction
  | @pass s goal w t T F X G J H d r hd ha _ =>
    have hlow : ∀ x, (if r.traversal t = .executing then detach s w d else s).low x = s.low x := fun x ↦ by
      split
      · exact s.low_detach w d x
      · rfl
    have hturned := hkeep (fun _ _ x _ ↦ hlow x) _ List.mem_cons_self
    refine hstep rfl rfl (hturned.turn rfl fun x y hxy ↦ hturned.opens x y ⟨?_, hxy.2⟩)
    rcases hxy.1 with ⟨_, hst⟩ | hst
    · contradiction
    · obtain rfl := Stance.back.inj hst
      exact .inl ⟨t, rfl⟩
  | @enter s goal w t t' T F X G J H d r hd ha hnot hmode =>
    have hwalk := hwalked _ List.mem_cons_self
    refine hstep rfl rfl ((h _ List.mem_cons_self).enter hs hwalk (hcomposed.kept _ List.mem_cons_self).bound
      (Option.isSome_of_mem hd) fun hmem ↦ ?_)
    obtain ⟨q, hq, hst⟩ := hwalk d hmem
    obtain rfl := Option.some.inj (hd.symm.trans hq)
    obtain ⟨-, hstatus⟩ := SourceText.arrival_eq_enter ha
    simp [hst, Status.outline] at hstatus
  | leaveLast _ =>
    refine hstep rfl rfl ((h _ List.mem_cons_self).turn rfl ?_)
    rintro x y ⟨⟨_, hst⟩ | hst, -⟩ <;> contradiction
  | @leaveBack s goal st w f rest T F X G J H d r q hst hf hr hq hlead =>
    obtain rfl := hone rfl
    have hqs : q.status = .evaluating := by
      have := he.status d q hq
      simp only [leadsBack, Bool.or_eq_true, Bool.and_eq_true, decide_eq_true_eq] at hlead
      refine hlead.resolve_right fun hsearching ↦ ?_
      simp [hsearching.1, Status.isSearched] at this
    have hmem := hv.sound.mem_stack_of_evaluating hq hqs
    exact hstep rfl rfl ((h _ List.mem_cons_self).leave hf hst hmem hq hs (hwalked _ List.mem_cons_self))
  | @leaveSearched s goal st w f rest T F X G J H d r q hst hf hr hq hlead hqs =>
    have := he.status d q hq
    simp [hqs, Status.isSearched] at this
  | leaveOff _ _ _ _ _ _ =>
    have hkept := hkeep (fun _ _ x _ ↦ Store.low_await _ _ _ x) _ List.mem_cons_self
    refine hstep rfl rfl (hkept.turn rfl ?_)
    rintro x y ⟨⟨_, hst⟩ | hst, -⟩ <;> contradiction
  | hold hf _ _ =>
    have hkept := hkeep (fun _ _ x _ ↦ Store.low_holdModule _ _ x) _ List.mem_cons_self
    exact hstep rfl rfl (hkept.through hf rfl)
  | run hf _ _ _ => exact hstep rfl rfl ((h _ List.mem_cons_self).through hf rfl)
  | @runAsync s goal w m rest T F X G J H r hf hr h0 hw =>
    have hkept := hkeep (fun _ _ x _ ↦ s.low_startAsync m x) _ List.mem_cons_self
    exact hstep rfl rfl (hkept.through hf rfl)
  | search hf =>
    have := ((he.tours _ List.mem_cons_self).frames _ (hf ▸ List.mem_cons_self)).1
    contradiction
  | ended _ _ =>
    refine hstep rfl rfl ((h _ List.mem_cons_self).turn rfl ?_)
    rintro x y ⟨⟨_, hst⟩ | hst, -⟩ <;> contradiction
  | pop hstack _ hroot =>
    refine hstep rfl rfl ((hcomposed.closes hv he hstack hroot).woven (h _ List.mem_cons_self))
  | done _ => exact hend rfl rfl
  | fail _ _ _ => exact hend rfl rfl
  | failed _ _ => exact h
  | drop _ => exact h
  | freedAsync _ => exact h
  | _ => exact List.forall_mem_nil _

/-- What holds of a scene if there is one walk at a time, and all requests are for evaluation. -/
structure Scene.Woven (S : Scene) : Prop where
  valid : Valid S
  eager : S.Eager
  represented : S.store.Represented
  composed : Composed S.store S.tours
  tours : ∀ τ ∈ S.tours, τ.Woven S.store

theorem Move.weaves {mode : Mode} {S S' : Scene} (hmove : Move mode S S')
    (hmode : ¬mode.nests ∧ ¬mode.skips) (h : S.Woven) : S'.Woven where
  valid := hmove.valid h.valid
  eager := hmove.eager h.valid h.eager
  represented := hmove.represented h.valid h.eager h.represented
  composed := hmove.composed hmode h.valid h.eager h.represented h.composed
  tours := hmove.woven hmode h.valid h.eager h.represented h.composed h.tours

theorem Moves.weave {mode : Mode} {S S' : Scene} (hmoves : Moves mode S S')
    (hmode : ¬mode.nests ∧ ¬mode.skips) (h : S.Woven) : S'.Woven := by
  induction hmoves with
  | refl => exact h
  | tail _ hmove ih => exact hmove.weaves hmode ih

/-! ## Runs -/

/-- Bodies do not start evaluations, and have nothing read from a deferred namespace while a walk is under
way. -/
structure Machine.Solitary (M M' : Machine) : Prop extends M.LinksApart M' where
  outside : ∀ m, M.control = .run (.evaluate m) → M.frames = []
  forces : ∀ m, M.control = .run (.force m) → M.tours = []

/-- Everything may happen, but that walks start while others are under way, and that they pass over
requests. -/
def Mode.solitary : Mode :=
  ⟨fun _ ↦ True, fun _ ↦ True, True, True, True, True, False, True, False⟩

namespace Machine

variable {M M' : Machine} {H : List Event}

/-- What is being linked is changed by linking only. -/
theorem Interlinked.keepsLinking (h : M.Interlinked) (hP : M.LinksApart M') :
    M.links ∨ M.store.KeepsLinking M.step.store M.linkTours := by
  rcases hnext : M.next? with _ | x
  · exact .inr fun _ _ x _ hx ↦ by rwa [step_of_next?_eq_none hnext]
  have hstore : M.step.store = x.1 := by rw [step_of_next? hnext, store_apply]
  cases h.proceeds hP hnext with
  | walk hcontrol _ => exact .inl (.inl ⟨_, hcontrol⟩)
  | setUp hcontrol hframes _ => exact .inl (.inr ⟨_, _, _, _, hcontrol, hframes⟩)
  | beside hskirts _ _ _ => exact .inr fun _ _ x _ hx ↦ hstore ▸ (hskirts.linking x).2 hx
  | link _ hbegins =>
    refine .inr fun _ _ x _ hx ↦ hstore ▸ ?_
    cases hbegins with
    | refused message _ => exact ((Aside.throw M.store .typeError message).steady.status x).trans hx
    | enter hm =>
      refine (LinkWalk.status?_enter_of_ne ?_ 0).trans hx
      rintro rfl
      exact absurd (hm.symm.trans hx) (by simp)
    | linked _ => exact hx

/-- Everything was loaded for the modules that a walk has come to. -/
theorem Interlinked.loaded (h : M.Interlinked) (hwoven : (M.scene H).Woven) {goal : EvaluationGoal}
    {w : EvaluationWalk} (hw : M.control = .run (.evaluation goal w)) : w.Loaded M.store := by
  intro f r rest rs hf hr
  have hmem : (⟨goal, .here, w⟩ : Tour) ∈ (M.scene H).tours := by
    obtain ⟨s, control, fs⟩ := M
    obtain rfl : control = _ := hw
    exact List.mem_cons_self
  have hτ := hwoven.tours _ hmem
  have hstack := hτ.stack.mem f.module (by simp [Tour.path, Stance.top, hf])
  obtain ⟨q, hq, hst⟩ := hwoven.eager.evaluating hwoven.valid hmem hstack
  have hold : M.store.Old f.module := by
    intro hnew
    rw [Store.status?, show M.store.source? f.module = some q from hq, Option.map_some, hst] at hnew
    contradiction
  have hask : r ∈ (M.store.entries f.module).requests :=
    hτ.asks f (hf ▸ List.mem_cons_self) (hr ▸ List.mem_cons_self)
  obtain ⟨d, hd, -⟩ := h.charted.charts.rounded f.module hold r hask
  exact Option.isSome_of_mem hd

theorem Solitary.grants (hP : M.Solitary M.step) (h : M.Interlinked) (hwoven : (M.scene H).Woven) :
    M.Grants .solitary M.step := by
  refine ⟨⟨fun x _ hx ↦ ?_, .inl trivial, .inl trivial⟩, .inl trivial, h.keepsLinking hP.toLinksApart,
    .inl trivial, .inl trivial, .inr hP.forces, .inr fun _ _ ↦ h.loaded hwoven, .inl trivial,
    fun _ _ ↦ trivial⟩
  obtain ⟨r, hr, hs⟩ := Store.source?_of_status? hx
  have := hwoven.eager.status x r hr
  simp [hs, Status.isSearched] at this

end Machine

/-- A turn is part of a run. -/
theorem Turn.advance {st st' : State} (h : Turn Machine.Solitary st st') (H : List Event) :
    ∃ H', Advance Machine.Solitary (st, H) (st', H') := by
  cases h with
  | call a ha => exact ⟨_, .call a ha⟩
  | step hP => exact ⟨_, .step hP.outside hP⟩
  | consult hq hs => exact ⟨_, .consult hq hs⟩
  | answer as hq => exact ⟨_, .answer as hq⟩
  | finish hr => exact ⟨_, .finish hr⟩

/-- In the beginning no walk is under way. -/
theorem Store.Fresh.woven {s : Store} (h : s.Fresh) (he : s.EvaluationOnly) :
    ((State.idle s).scene []).Woven := by
  have hwhole := h.whole he
  exact ⟨hwhole.valid, hwhole.eager, hwhole.represented, hwhole.composed, List.forall_mem_nil _⟩

/-- What is known of the stacks of walks holds throughout a run. -/
theorem Scene.Woven.turns {s₀ : Store} {st : State} (hs : (State.idle s₀).Interlinked) (hf : s₀.Fresh)
    (he : s₀.EvaluationOnly) (h : Turns Machine.Solitary (.idle s₀) st) :
    ∃ H, (st.scene H).Woven ∧ ∀ a M, st = .busy a M → M.Fit H := by
  induction h with
  | refl => exact ⟨[], hf.woven he, fun _ _ h ↦ absurd h State.idle_ne_busy⟩
  | @tail st st' hturns hturn ih =>
    obtain ⟨H, hwoven, hfit⟩ := ih
    have hinterlinked := hs.turns (Turns.mono (fun _ _ hP ↦ hP.toLinksApart) hturns)
    obtain ⟨H', hadvance⟩ := hturn.advance H
    have hgrants : ∀ a M, st = .busy a M → M.Solitary M.step → M.Grants .solitary M.step := by
      rintro a M rfl hP
      exact hP.grants hinterlinked hwoven
    obtain ⟨hmoves, hfit'⟩ := hadvance.moves hgrants hwoven.valid hfit
    exact ⟨H', hmoves.weave ⟨not_false, not_false⟩ hwoven, hfit'⟩

/-! ## What is taken off -/

/-- A walk that is through with a module that it executes: the component of the module is taken off the
stack, and is represented by the module, or nothing is taken off. -/
inductive EvaluationWalk.Pops (s : Store) (w : EvaluationWalk) (m : ModuleId) :
    Store × EvaluationStep → Prop where
  | component {above below : List ModuleId} {s' : Store} :
      PopsComponent s.Requests s.depth w.stack (w.frames.map (·.module)) m above below →
      (∀ x ∈ above ++ [m], s'.root? x = some m) → Pops s w m (back s' { w with stack := below } m)
  | nothing : Pops s w m (back s w m)

/-- In the next step a walk is through with a module that it executes, which has to wait for others, or has
just been executed. -/
inductive Machine.Concludes (M : Machine) : Store → EvaluationWalk → ModuleId → Prop where
  | held {goal : EvaluationGoal} {w : EvaluationWalk} {m : ModuleId} {rest : List EvaluationFrame}
      {r : SourceText} : M.control = .run (.evaluation goal w) → w.frames = ⟨m, .executing, []⟩ :: rest →
      M.store.source? m = some r → 0 < r.pendingAsync →
      Concludes M (M.store.holdModule m) { w with frames := rest } m
  | executed {r : Result} {goal : EvaluationGoal} {m : ModuleId} {capability : Option PromiseId}
      {w : EvaluationWalk} {fs : List Frame} : M.control = .give r →
      M.frames = .executed goal m capability w :: fs → r.toCompletion = .ok () → Concludes M M.store w m
  | rejected {r : Result} {goal : EvaluationGoal} {m : ModuleId} {p : PromiseId} {w : EvaluationWalk}
      {fs : List Frame} {e : ErrorId} : M.control = .give r →
      M.frames = .executed goal m (some p) w :: fs → r.toCompletion = .error e →
      Concludes M (M.store.reject p e) w m

variable {M : Machine} {H : List Event} {s : Store} {w : EvaluationWalk} {m : ModuleId}

theorem Machine.Concludes.step (h : M.Concludes s w m) : ∃ goal, M.next? =
    some ((EvaluationWalk.concludeExecuted s w m).2.next (EvaluationWalk.concludeExecuted s w m).1 goal) := by
  obtain ⟨s₀, control, fs₀⟩ := M
  cases h with
  | @held goal w m rest r hcontrol hf hr hpos =>
    obtain rfl : control = _ := hcontrol
    refine ⟨goal, congrArg some ?_⟩
    have hr : s₀.source? m = some r := hr
    have hadvance : w.advance s₀ =
        EvaluationWalk.concludeExecuted (s₀.holdModule m) { w with frames := rest } m := by
      simp only [EvaluationWalk.advance, hf, EvaluationWalk.execute, hr, if_pos hpos, Store.holdModule]
    rw [← hadvance]
    rfl
  | @executed r goal m capability w fs hcontrol hframes hok =>
    obtain rfl : control = _ := hcontrol
    obtain rfl : fs₀ = _ := hframes
    refine ⟨goal, congrArg some ?_⟩
    simp only [Frame.resume, EvaluationWalk.executed, hok]
  | @rejected r goal m p w fs e hcontrol hframes herror =>
    obtain rfl : control = _ := hcontrol
    obtain rfl : fs₀ = _ := hframes
    refine ⟨goal, congrArg some ?_⟩
    simp only [Frame.resume, EvaluationWalk.executed, herror]

/-- What a walk takes off its stack is a component. -/
theorem Scene.Woven.pops {goal : EvaluationGoal} {T : List Tour} {F X : List ModuleId}
    (h : Scene.Woven ⟨s, ⟨goal, .through m, w⟩ :: T, F, X, [], [], H⟩) :
    w.Pops s m (EvaluationWalk.concludeExecuted s w m) := by
  have hvalid := h.valid
  unfold EvaluationWalk.concludeExecuted
  rw [EvaluationWalk.closesComponent_eq hvalid]
  cases hroot : s.isComponentRoot m with
  | false => exact .nothing
  | true =>
    obtain ⟨above, below, hstack, -, hnot, hvalid', -⟩ := EvaluationWalk.pop_lands .solitary hvalid hroot
    have hcloses := h.composed.closes hvalid h.eager hstack hroot
    have hdrop := EvaluationWalk.dropWhile_settling hvalid'
    dsimp only at hdrop
    simp only [if_true, hstack, EvaluationWalk.popExecuted_append s hnot, hdrop]
    refine .component (hcloses.popsComponent (h.tours _ List.mem_cons_self)) fun x hx ↦ ?_
    rw [hcloses.root?_eq, if_pos hx]

/-- The same, for a machine in which there is one walk at a time. -/
theorem Machine.Concludes.pops (h : M.Concludes s w m) (hwoven : (M.scene H).Woven) (hfit : M.Fit H) :
    w.Pops s m (EvaluationWalk.concludeExecuted s w m) := by
  obtain ⟨s₀, control, fs₀⟩ := M
  cases h with
  | @held goal w m rest r hcontrol hf hr hpos =>
    obtain rfl : control = _ := hcontrol
    have hmove : Move .solitary ((Machine.mk s₀ (.run (.evaluation goal w)) fs₀).scene H) _ :=
      .hold hf hr hpos
    exact (hmove.weaves ⟨not_false, not_false⟩ hwoven).pops
  | @executed r goal m capability w fs hcontrol hframes hok =>
    obtain rfl : control = _ := hcontrol
    obtain rfl : fs₀ = _ := hframes
    have hb : .began m capability ∈ H :=
      hfit.piled.called _ List.mem_cons_self (m, capability) (List.mem_singleton.2 rfl)
    have hmove : Move .solitary ((Machine.mk s₀ (.give r) (.executed goal m capability w :: fs)).scene H) _ :=
      .ended hb (c := .ok ()) (.inl rfl)
    exact (hmove.weaves ⟨not_false, not_false⟩ hwoven).pops
  | @rejected r goal m p w fs e hcontrol hframes herror =>
    obtain rfl : control = _ := hcontrol
    obtain rfl : fs₀ = _ := hframes
    have hb : .began m (some p) ∈ H :=
      hfit.piled.called _ List.mem_cons_self (m, some p) (List.mem_singleton.2 rfl)
    have hmove : Move .solitary ((Machine.mk s₀ (.give r) (.executed goal m (some p) w :: fs)).scene H) _ :=
      .ended hb (c := .error e) (.inr rfl)
    have haside : Apart s₀ (s₀.reject p e) := .settle s₀ p _
    have hmoves := Relation.ReflTransGen.single hmove |>.tail (.aside haside.afar (.inr haside.steady.imported))
    exact (Moves.weave hmoves ⟨not_false, not_false⟩ hwoven).pops

/-! ## Components are taken off as a whole -/

/-- When a walk takes modules off its stack, they are a component of the graph. This holds of walks that
link; and of walks that evaluate, if all requests are for evaluation and there is one walk at a time, and then
the component is represented by the module that the walk came to first. -/
theorem walks_take_off_components {s₀ : Store} (hs : s₀.Unread) (hf : s₀.Fresh) {a : Act} {M : Machine} :
    (Turns Machine.LinksApart (.idle s₀) (.busy a M) →
      (∀ w ∈ M.linkWalks, ∀ x ∈ w.stack, M.store.earliest x ≤ M.store.index x) ∧
      ∀ r m w fs, M.control = .give r → M.frames = .setUp m w :: fs → r.toCompletion = .ok () →
        M.next? = some ((w.conclude M.store m).1, .goto (.linking (w.conclude M.store m).2)) ∧
        w.Pops M.store m (w.conclude M.store m)) ∧
    (s₀.EvaluationOnly → Turns Machine.Solitary (.idle s₀) (.busy a M) →
      (∀ τ ∈ M.tours, ∀ x ∈ τ.walk.stack, M.store.low x ≤ M.store.depth x) ∧
      ∀ s w m, M.Concludes s w m →
        (∃ goal, M.next? = some ((EvaluationWalk.concludeExecuted s w m).2.next
          (EvaluationWalk.concludeExecuted s w m).1 goal)) ∧
        w.Pops s m (EvaluationWalk.concludeExecuted s w m)) := by
  have hinterlinked : (State.idle s₀).Interlinked := hs.interlinked hf.upright
  refine ⟨fun hturns ↦ ?_, fun he hturns ↦ ?_⟩
  · have hlinked := hinterlinked.turns hturns
    have hwoven : M.Interwoven := State.Interwoven.turns hinterlinked hturns
    refine ⟨fun w hw ↦ (hwoven w hw).low_le, fun r m w fs hcontrol hframes hok ↦ ⟨?_, ?_⟩⟩
    · rw [Machine.next?, hcontrol, hframes]
      simp only [Frame.resume, hok]
    · exact (hwoven.concludes hlinked hcontrol hframes).1
  · obtain ⟨H, hwoven, hfit⟩ := Scene.Woven.turns hinterlinked hf he hturns
    refine ⟨fun τ hτ x hx ↦ (hwoven.tours τ hτ).stack.low_le x hx, fun s w m hc ↦ ⟨hc.step, ?_⟩⟩
    exact hc.pops hwoven (hfit a M rfl)

/-! ### A circle that is taken off -/

namespace Machine

/-- A check for `Solitary`. -/
def solitaryNow (M : Machine) : Bool :=
  match M.control with
  | .run (.evaluate m) => M.frames.isEmpty && M.store.status? m == some .linked
  | .run (.force _) => M.tours.isEmpty
  | _ => M.linksAside

theorem solitary_of_solitaryNow (M M' : Machine) (h : M.solitaryNow = true) : M.Solitary M' := by
  have hapart : M.LinksApart M' := by
    refine ⟨fun m hm ↦ ?_, fun m hm ↦ ?_, fun b rest m hm ↦ ?_⟩
    · simp only [solitaryNow, hm, Bool.and_eq_true, beq_iff_eq] at h
      exact Store.linked_iff.2 fun status hstatus ↦ by
        rw [h.2] at hstatus
        exact (Option.some.inj hstatus).le
    · exact (linksApart_of_linksAside M M' (by simpa [solitaryNow, hm] using h)).link m hm
    · exact (linksApart_of_linksAside M M' (by simpa [solitaryNow, hm] using h)).answers b rest m hm
  refine ⟨hapart, fun m hm ↦ ?_, fun m hm ↦ ?_⟩
  · simp only [solitaryNow, hm, Bool.and_eq_true, List.isEmpty_iff] at h
    exact h.1
  · simpa [solitaryNow, hm] using h

/-- The module that a walk that links is through with, when the body comes back, and the stack of the walk. -/
def linkConcluding? (M : Machine) : Option (ModuleId × List ModuleId) :=
  match M.control, M.frames with
  | .give r, .setUp m w :: _ => if r.toCompletion = .ok () then some (m, w.stack) else none
  | _, _ => none

/-- The module that a walk that evaluates is through with, when the body comes back, and the stack of the
walk. -/
def evaluationConcluding? (M : Machine) : Option (ModuleId × List ModuleId) :=
  match M.control, M.frames with
  | .give r, .executed _ m _ w :: _ => if r.toCompletion = .ok () then some (m, w.stack) else none
  | _, _ => none

variable {M : Machine} {m : ModuleId} {w : List ModuleId}

theorem setUp_of_concluding (h : M.linkConcluding? = some (m, w)) : ∃ r u fs, M.control = .give r ∧
    M.frames = .setUp m u :: fs ∧ r.toCompletion = .ok () ∧ u.stack = w := by
  unfold linkConcluding? at h
  split at h
  · next r m' u fs hcontrol hframes =>
    split at h
    · next hok =>
      obtain ⟨rfl, rfl⟩ := Prod.mk.inj (Option.some.inj h)
      exact ⟨r, u, fs, hcontrol, hframes, hok, rfl⟩
    · contradiction
  · contradiction

theorem concludes_of_concluding (h : M.evaluationConcluding? = some (m, w)) :
    ∃ u, M.Concludes M.store u m ∧ u.stack = w := by
  unfold evaluationConcluding? at h
  split at h
  · next r goal m' capability u fs hcontrol hframes =>
    split at h
    · next hok =>
      obtain ⟨rfl, rfl⟩ := Prod.mk.inj (Option.some.inj h)
      exact ⟨u, .executed hcontrol hframes hok, rfl⟩
    · contradiction
  · contradiction

end Machine

/-- Two modules that request each other. -/
def mutualRequests : Store where
  modules := #[.preparing ["other"] [], .preparing ["one"] []]
  stage := { modules := [("one", ⟨0⟩), ("other", ⟨1⟩)] }

namespace MutualRequests

/-- The modules when they have been loaded. -/
def loaded : Store := ((Machine.start mutualRequests (.load ⟨0⟩ none)).serve 20).store

/-- The first one is being linked, and the walk is through with it. -/
def linking : Machine := (Machine.start loaded (.link ⟨0⟩)).serve 8

/-- The modules when they have been linked. -/
def linked : Store := ((Machine.start loaded (.link ⟨0⟩)).serve 10).store

/-- The first one is being evaluated, and the walk is through with it. -/
def evaluating : Machine := (Machine.start linked (.evaluate ⟨0⟩)).serve 8

theorem turns_loaded : Turns Machine.Solitary (.idle mutualRequests) (.idle loaded) :=
  Turns.served (a := .load ⟨0⟩ none) .refl Machine.solitary_of_solitaryNow rfl (by decide +kernel)
    (by decide +kernel)

theorem turns_linking : Turns Machine.Solitary (.idle mutualRequests) (.busy (.link ⟨0⟩) linking) :=
  (turns_loaded.tail (.call (.link ⟨0⟩) rfl)).trans
    (Turns.serve Machine.solitary_of_solitaryNow (by decide +kernel))

theorem turns_evaluating : Turns Machine.Solitary (.idle mutualRequests) (.busy (.evaluate ⟨0⟩) evaluating) := by
  have hlinked : Turns Machine.Solitary (.idle mutualRequests) (.idle linked) :=
    Turns.served (a := .link ⟨0⟩) turns_loaded Machine.solitary_of_solitaryNow rfl (by decide +kernel)
      (by decide +kernel)
  exact (hlinked.tail (.call (.evaluate ⟨0⟩) rfl)).trans
    (Turns.serve Machine.solitary_of_solitaryNow (by decide +kernel))

end MutualRequests

open MutualRequests in
/-- Both modules are on the stack when linking, and evaluating, is through with the first one. -/
theorem walks_take_off_components_mutualRequests :
    mutualRequests.Unread ∧ mutualRequests.Fresh ∧ mutualRequests.EvaluationOnly ∧
    (∃ w fs, linking.frames = .setUp ⟨0⟩ w :: fs ∧ w.stack = [⟨1⟩, ⟨0⟩] ∧
      w.Pops linking.store ⟨0⟩ (w.conclude linking.store ⟨0⟩)) ∧
    ∃ w, evaluating.Concludes evaluating.store w ⟨0⟩ ∧ w.stack = [⟨1⟩, ⟨0⟩] ∧
      w.Pops evaluating.store ⟨0⟩ (EvaluationWalk.concludeExecuted evaluating.store w ⟨0⟩) := by
  obtain ⟨hunread, hfresh⟩ := Store.unread_of_preparing (s := mutualRequests)
    (l := [(["other"], []), (["one"], [])]) rfl rfl rfl rfl
  have honly : mutualRequests.EvaluationOnly := Store.evaluationOnly_of_all (by decide +kernel)
  refine ⟨hunread, hfresh, honly, ?_, ?_⟩
  · obtain ⟨r, w, fs, hcontrol, hframes, hok, hstack⟩ :=
      Machine.setUp_of_concluding (M := linking) (m := ⟨0⟩) (w := [⟨1⟩, ⟨0⟩]) (by decide +kernel)
    have hlinks := Turns.mono (fun _ _ hP ↦ hP.toLinksApart) turns_linking
    exact ⟨w, fs, hframes, hstack,
      (((walks_take_off_components hunread hfresh).1 hlinks).2 r ⟨0⟩ w fs hcontrol hframes hok).2⟩
  · obtain ⟨w, hconcludes, hstack⟩ :=
      Machine.concludes_of_concluding (M := evaluating) (m := ⟨0⟩) (w := [⟨1⟩, ⟨0⟩]) (by decide +kernel)
    exact ⟨w, hconcludes, hstack,
      (((walks_take_off_components hunread hfresh).2 honly turns_evaluating).2 _ w ⟨0⟩ hconcludes).2⟩

end EcmaModules
