import EcmaModules.Proofs.Incidents
import EcmaModules.Proofs.Verdict

/-!
# The order of evaluation

Evaluation goes through the modules that have not been evaluated yet depth first, and executes each of them when
it is through with those that this one requests (`Store.evaluationOrder`). The order is that of the plain
traversal, which knows nothing of stacks and components. A module that has failed before is not entered, but
it has a place in the order, since the walk ends there.

A walk for which nothing waits is through with the modules at the beginning of the order
(`Store.InSequence`). Those it has executed are on its stack still, or have been evaluated, together with all
that lead to them and are led to by them. It adds a module to them with each body (`Store.InSequence.wends`), or
fails at the next module in the order (`Store.InSequence.founders`).
-/

namespace EcmaModules

variable {s s' s'' : Store} {w w' : EvaluationWalk} {m d x y root : ModuleId} {R : ModuleId → Prop}

/-! ## Paths -/

section Paths

variable {α : Type}

/-- A fresh place that nothing comes after. -/
theorem remaining_leaf [DecidableEq α] {succ : α → List α} {fresh : Finset α} {m d : α} {ds : List α}
    {path : List (α × List α)} (hd : d ∈ fresh) (hsucc : succ d = []) :
    remaining succ fresh ((m, d :: ds) :: path) = d :: remaining succ (fresh.erase d) ((m, ds) :: path) := by
  rw [← remaining_enter hd, hsucc, remaining_through]

/-- The places on a path are among what is left. -/
theorem mem_remaining [DecidableEq α] {succ : α → List α} {fresh : Finset α} {path : List (α × List α)}
    {f : α × List α} (hf : f ∈ path) : f.1 ∈ remaining succ fresh path := by
  induction path generalizing fresh with
  | nil => contradiction
  | cons g path ih =>
    refine List.mem_append_right _ ?_
    rcases List.mem_cons.1 hf with rfl | hf
    · exact List.mem_cons_self
    · exact List.mem_cons_of_mem _ (ih hf)

theorem mem_untouched [DecidableEq α] {succ : α → List α} {fresh : Finset α} {x : α} {ds : List α} (hfresh : x ∈ fresh)
    (hx : x ∉ postorder succ fresh ds) : x ∈ untouched succ fresh ds := by
  by_contra hout
  exact hx (mem_postorder_iff.2 ⟨hfresh, hout⟩)

/-- A traversal enters all fresh places that it comes to. -/
theorem mem_postorder_of_mem [DecidableEq α] {succ : α → List α} {fresh : Finset α} {x : α} {ds : List α}
    (hfresh : x ∈ fresh) (hx : x ∈ ds) : x ∈ postorder succ fresh ds := by
  induction fresh, ds using traverse_induction succ with
  | nil fresh => contradiction
  | skip fresh d ds hd ih =>
    rw [postorder_cons_of_notMem hd]
    exact ih hfresh ((List.mem_cons.1 hx).resolve_left fun heq ↦ hd (heq ▸ hfresh))
  | enter fresh d ds hd hinner houter =>
    rw [postorder_cons_of_mem hd, List.mem_append, List.mem_cons]
    by_cases hxd : x = d
    · exact .inr (.inl hxd)
    · by_cases hin : x ∈ postorder succ (fresh.erase d) (succ d)
      · exact .inl hin
      · have hleft := mem_untouched (Finset.mem_erase.2 ⟨hxd, hfresh⟩) hin
        exact .inr (.inr (houter hleft ((List.mem_cons.1 hx).resolve_left hxd)))

/-- So it does from the places that it has entered. -/
theorem mem_postorder_of_succ [DecidableEq α] {succ : α → List α} {fresh : Finset α} {x y : α} {ds : List α}
    (hx : x ∈ postorder succ fresh ds) (hy : y ∈ succ x) (hfresh : y ∈ fresh) : y ∈ postorder succ fresh ds := by
  induction fresh, ds using traverse_induction succ with
  | nil fresh => simp at hx
  | skip fresh d ds hd ih =>
    rw [postorder_cons_of_notMem hd] at hx ⊢
    exact ih hx hfresh
  | enter fresh d ds hd hinner houter =>
    rw [postorder_cons_of_mem hd, List.mem_append, List.mem_cons] at hx ⊢
    by_cases hyd : y = d
    · exact .inr (.inl hyd)
    have herased : y ∈ fresh.erase d := Finset.mem_erase.2 ⟨hyd, hfresh⟩
    by_cases hin : y ∈ postorder succ (fresh.erase d) (succ d)
    · exact .inl hin
    rcases hx with hx | rfl | hx
    · exact absurd (hinner hx herased) hin
    · exact absurd (mem_postorder_of_mem herased hy) hin
    · exact .inr (.inr (houter hx (mem_untouched herased hin)))

/-- A place on the stack is in one component with a place on the path. -/
theorem Woven.exists_mutual {R : α → α → Prop} {index low : α → ℕ} {stack path : List α} {x : α}
    (h : Woven R index low stack path) (hx : x ∈ stack) : ∃ p ∈ path, Mutual R p x := by
  suffices hback : ∃ p ∈ path, index p ≤ index x ∧ Relation.ReflTransGen R x p by
    obtain ⟨p, hp, hle, hxp⟩ := hback
    exact ⟨p, hp, h.above p hp x hx hle, hxp⟩
  induction hi : index x using Nat.strong_induction_on generalizing x with
  | h i ih =>
    by_cases hpath : x ∈ path
    · exact ⟨x, hpath, hi.le, .refl⟩
    · obtain ⟨y, hy, hxy, hlow⟩ := h.back x hx
      have hlt : index y < i := by
        rw [hlow, ← hi]
        exact h.inner x hx hpath
      obtain ⟨p, hp, hle, hyp⟩ := ih _ hlt hy rfl
      exact ⟨p, hp, hle.trans hlt.le, hxy.trans hyp⟩

end Paths

namespace Store

/-! ## The order -/

/-- The modules that walks do not just pass by. -/
def due (s : Store) : Finset ModuleId :=
  ((List.range s.modules.size).map ModuleId.mk).toFinset.filter fun x ↦ s.isDue x = true

theorem index_lt_of_module (h : (s.module? m).isSome) : m.index < s.modules.size := by
  by_contra hle
  rw [module?, Array.getElem?_eq_none (Nat.le_of_not_lt hle)] at h
  contradiction

theorem isSome_module?_of_isDue (h : s.isDue x = true) : (s.module? x).isSome := by
  rw [Option.isSome_iff_ne_none]
  intro hnone
  have hsource : s.source? x = none := by rw [source?, hnone]
  have hprogress : s.progress x = none := by rw [progress, synthetic?, hnone]; rfl
  have hstatus : s.status? x = none := by rw [status?, hsource, Option.map_none]
  simp [isDue, hstatus, failure?, isUnrun, hprogress, state?_eq_none_iff.2 hsource] at h

theorem mem_due : x ∈ s.due ↔ s.isDue x = true := by
  rw [due, Finset.mem_filter, List.mem_toFinset, List.mem_map]
  exact and_iff_right_of_imp fun hx ↦
    ⟨x.index, List.mem_range.2 (index_lt_of_module (isSome_module?_of_isDue hx)), rfl⟩

/-- The modules that a walk comes to from a module that it enters. -/
def following (s : Store) (m : ModuleId) : List ModuleId :=
  if s.status? m = some .linked then s.requested m else []

/-- The modules that the evaluation of a module comes to and does not just pass by, in the order in which it is
through with them. -/
def evaluationOrder (s : Store) (root : ModuleId) : List ModuleId := postorder s.following s.due [root]

/-- A module leads to another one by way of modules that are linked. -/
def Opens (s : Store) (x y : ModuleId) : Prop := s.status? x = some .linked ∧ s.Requests x y

/-- The order has just those modules that there is something to be done for, and that the module leads to by way
of linked ones. -/
theorem mem_evaluationOrder : x ∈ s.evaluationOrder root ↔
    s.isDue x = true ∧ Relation.ReflTransGen s.Opens root x := by
  classical
  refine ⟨fun hx ↦ ?_, fun h ↦ ?_⟩
  · have hinside : ∀ y ∈ s.evaluationOrder root, y ∈ s.due.filter (Relation.ReflTransGen s.Opens root) := by
      refine postorder_subset_of_closed (fun y hy d hd hfresh ↦ ?_) (fun d hd hfresh ↦ ?_)
      · rw [following] at hd
        split at hd
        · next hlinked =>
          exact Finset.mem_filter.2 ⟨hfresh, (Finset.mem_filter.1 hy).2.tail ⟨hlinked, mem_requested.1 hd⟩⟩
        · contradiction
      · exact Finset.mem_filter.2 ⟨hfresh, List.mem_singleton.1 hd ▸ .refl⟩
    obtain ⟨hdue, hreaches⟩ := Finset.mem_filter.1 (hinside x hx)
    exact ⟨mem_due.1 hdue, hreaches⟩
  · obtain ⟨hx, hreaches⟩ := h
    induction hreaches with
    | refl => exact mem_postorder_of_mem (mem_due.2 hx) List.mem_cons_self
    | @tail y x _ hopens ih =>
      have hy : s.isDue y = true := by simp [isDue, hopens.1]
      refine mem_postorder_of_succ (ih hy) ?_ (mem_due.2 hx)
      rw [following, if_pos hopens.1]
      exact mem_requested.2 hopens.2

/-- The module of a frame, with those that the walk has not come to from there. -/
def outlook (s : Store) (f : EvaluationFrame) : ModuleId × List ModuleId :=
  (f.module, f.requests.filterMap (s.imported? f.module))

theorem outlook_cons_of_some {t : Traversal} {q : Request} {requests : List Request} (h : s.imported? m q = some d) :
    s.outlook ⟨m, t, q :: requests⟩ = (m, d :: (s.outlook ⟨m, t, requests⟩).2) := by
  rw [outlook, outlook, List.filterMap_cons_some h]

/-! ### What is left to be done -/

theorem source_of_state? {y : Status × Option ErrorId} (h : s.state? x = some y) :
    ∃ r, s.source? x = some r ∧ r.status = y.1 ∧ r.evaluationError = y.2 := by
  obtain ⟨r, hr, rfl⟩ := Option.map_eq_some_iff.1 h
  exact ⟨r, hr, rfl, rfl⟩

theorem failure?_congr (hstate : s'.state? x = s.state? x) (hprogress : s'.progress x = s.progress x) :
    s'.failure? x = s.failure? x := by
  rw [failure?, hstate, hprogress, failure?]

theorem isDue_congr (hstate : s'.state? x = s.state? x) (hprogress : s'.progress x = s.progress x) :
    s'.isDue x = s.isDue x := by
  rw [isDue, isDue, failure?_congr hstate hprogress, isUnrun, isUnrun, hprogress, status?_eq_map_state?, hstate,
    status?_eq_map_state?]

theorem failure?_of_state? {st : Status} {e : Option ErrorId} (h : s.state? x = some (st, e)) : s.failure? x = e := by
  rw [failure?, h]

theorem isDue_of_state? {st : Status} (h : s.state? x = some (st, none)) :
    s.isDue x = true ↔ st = .linked := by
  obtain ⟨r, hr, -, -⟩ := source_of_state? h
  simp [isDue, status?_eq_map_state?, h, failure?_of_state? h, isUnrun, progress_eq_none hr]

theorem isDue_of_progress (hstate : s.state? x = none) (h : s.progress x = some (none, some (.ok ()))) :
    s.isDue x = false := by
  simp [isDue, status?_eq_map_state?, hstate, failure?, h, isUnrun]

theorem due_congr (h : ∀ x, s'.isDue x = s.isDue x) : s'.due = s.due := by
  ext x
  rw [mem_due, mem_due, h]

theorem Resembles.due (h : s.Resembles s') : s'.due = s.due :=
  due_congr fun x ↦ isDue_congr (h.state x) (h.progress x)

/-- Nothing is left to be done for a module. -/
theorem due_erase (hd : s'.isDue d = false) (h : ∀ x, x ≠ d → s'.isDue x = s.isDue x) : s'.due = s.due.erase d := by
  ext x
  rw [Finset.mem_erase, mem_due, mem_due]
  by_cases hx : x = d
  · simp [hx, hd]
  · rw [h x hx]
    exact (and_iff_right hx).symm

/-! ## Where a walk is in the order -/

/-- A module that is linked has been loaded, with all that it leads to, and has not failed. -/
structure Poised (s : Store) : Prop where
  rounded : s.Rounded
  closed : s.LinkClosed
  clean : ∀ x, s.status? x = some .linked → s.failure? x = none

/-- A walk is under way in a graph that was loaded before. -/
structure Embarks (s s' : Store) (w : EvaluationWalk) : Prop where
  echoes : s.Echoes s'
  mem_stack : ∀ f ∈ w.frames, f.module ∈ w.stack
  asks : ∀ f ∈ w.frames, f.requests ⊆ (s'.entries f.module).requests
  evaluating : ∀ x ∈ w.stack, s'.state? x = some (.evaluating, none)

/-- What a walk is through with comes first in the order, then what it is going to be through with. -/
structure InSequence (s : Store) (root : ModuleId) (done : List ModuleId) (y : Store × EvaluationWalk) : Prop where
  order : s.evaluationOrder root = done ++ remaining s.following y.1.due (y.2.frames.map s.outlook)
  passed : ∀ d ∈ done, s.failure? d = none
  linked : ∀ x ∈ y.2.stack, s.status? x = some .linked ∧ s.Reaches root x
  stacked : ∀ x ∈ y.2.stack, x ∈ done ∨ ∃ f ∈ y.2.frames, f.module = x
  /-- A module that is not on the stack is as it was, or its component has been evaluated. -/
  state : ∀ x ∉ y.2.stack, y.1.state? x = s.state? x ∨ s.status? x = some .linked ∧
    y.1.state? x = some (.evaluated, none) ∧ ∀ z, Mutual s.Requests x z → z ∈ done
  progress : ∀ x, y.1.progress x = s.progress x ∨ x ∈ done ∧ y.1.progress x = some (none, some (.ok ()))
  ran : ∀ d ∈ done, s.isUnrun d = true → y.1.progress d = some (none, some (.ok ()))
  /-- What the walk was to execute is on the stack still, or has been evaluated. -/
  reached : ∀ x, x = root ∨ x ∈ done → s.status? x = some .linked →
    x ∈ y.2.stack ∨ y.1.state? x = some (.evaluated, none)

theorem isUnrun_of_linked (h : s.status? x = some .linked) : s.isUnrun x = false := by
  obtain ⟨r, hr, -⟩ := source?_of_status? h
  rw [isUnrun, progress_eq_none hr]

theorem linked_of_status? (h : s.status? x = some .linked) : s.Linked x :=
  linked_iff.2 fun _ hstatus ↦ (Option.some.inj (h.symm.trans hstatus)).le

namespace InSequence

variable {done : List ModuleId} {q : Request} {requests : List Request} {rest : List EvaluationFrame}

/-- A walk has entered the first module. -/
theorem start (hroot : s.status? root = some .linked)
    (hstate : ∀ x, s'.state? x = if x = root then some (.evaluating, none) else s.state? x)
    (hprogress : ∀ x, s'.progress x = s.progress x) :
    s.InSequence root [] (s',
      { frames := [⟨root, .executing, (s.entries root).requests⟩], stack := [root], index := 1 }) := by
  have hdue : root ∈ s.due := mem_due.2 (by simp [isDue, hroot])
  have hentered : s'.isDue root = false := by
    rw [Bool.eq_false_iff, ne_eq, isDue_of_state? ((hstate root).trans (if_pos rfl))]
    decide
  refine ⟨?_, by rintro _ ⟨⟩, ?_, ?_, fun x hx ↦ .inl ?_, fun x ↦ .inl (hprogress x), by rintro _ ⟨⟩,
    fun x hx _ ↦ .inl (List.mem_singleton.2 (hx.resolve_right List.not_mem_nil))⟩
  · have houtlook : s.outlook ⟨root, .executing, (s.entries root).requests⟩ = (root, s.following root) := by
      rw [following, if_pos hroot]
      rfl
    rw [due_erase hentered fun x hx ↦ isDue_congr ((hstate x).trans (if_neg hx)) (hprogress x), evaluationOrder,
      postorder_cons_of_mem hdue]
    simp only [List.map_cons, houtlook, remaining, postorder_nil, List.map_nil, List.nil_append]
  · exact List.forall_mem_singleton.2 ⟨hroot, .refl⟩
  · exact List.forall_mem_singleton.2 (.inr ⟨_, List.mem_cons_self, rfl⟩)
  · exact (hstate x).trans (if_neg fun heq ↦ hx (List.mem_singleton.2 heq))

/-- What a walk comes to was given for the request from the beginning. -/
theorem given (h : s.InSequence root done (s', w)) (hs : s.Poised) (hb : s.Embarks s' w)
    (hf : w.frames = ⟨m, .executing, q :: requests⟩ :: rest) (hd : s'.imported? m q = some d) :
    s.imported? m q = some d ∧ s.Reaches root d ∧ s.Linked d := by
  have hmem : (⟨m, .executing, q :: requests⟩ : EvaluationFrame) ∈ w.frames := hf ▸ List.mem_cons_self
  obtain ⟨hlinked, hreaches⟩ := h.linked m (hb.mem_stack _ hmem)
  have hlinked := linked_of_status? hlinked
  have hasks : q ∈ (s.entries m).requests := hb.echoes.entries m ▸ hb.asks _ hmem List.mem_cons_self
  obtain ⟨d', hd', -⟩ := hs.rounded m hlinked.old q hasks
  obtain rfl := Option.some.inj ((hb.echoes.grows m q d' hd').symm.trans hd)
  exact ⟨hd', hreaches.tail ⟨q, hasks, hd'⟩, hs.closed m d' hlinked ⟨q, hasks, hd'⟩⟩

/-- What the walk comes to next is next in the order, unless the walk just passes by. -/
theorem order_of_takes (h : s.InSequence root done (s', w)) (hs : s.Poised) (hb : s.Embarks s' w)
    (hf : w.frames = ⟨m, .executing, q :: requests⟩ :: rest) (hd : s'.imported? m q = some d) :
    s.evaluationOrder root = done ++ remaining s.following s'.due
      ((m, d :: (s.outlook ⟨m, .executing, requests⟩).2) :: rest.map s.outlook) := by
  have horder := h.order
  rwa [hf, List.map_cons, outlook_cons_of_some (h.given hs hb hf hd).1] at horder

/-- The frames of a walk that takes up a module are for the same modules. -/
theorem stacked_of_takes (h : s.InSequence root done (s', w))
    (hf : w.frames = ⟨m, .executing, q :: requests⟩ :: rest) (hx : x ∈ w.stack) :
    x ∈ done ∨ ∃ f ∈ (⟨m, .executing, requests⟩ :: rest : List EvaluationFrame), f.module = x := by
  refine (h.stacked x hx).imp_right fun ⟨f, hmem, hfx⟩ ↦ ?_
  have hmem : f ∈ w.frames := hmem
  rw [hf] at hmem
  rcases List.mem_cons.1 hmem with rfl | hmem
  · exact ⟨_, List.mem_cons_self, hfx⟩
  · exact ⟨f, List.mem_cons_of_mem _ hmem, hfx⟩

/-- A module that has not been entered is as it was. -/
theorem state_of_linked (h : s.InSequence root done (s', w)) (hb : s.Embarks s' w)
    (hd : s'.status? d = some .linked) : d ∉ w.stack ∧ s'.state? d = s.state? d := by
  rw [status?_eq_map_state?] at hd
  have hnot : d ∉ w.stack := fun hmem ↦ by
    rw [hb.evaluating d hmem] at hd
    contradiction
  refine ⟨hnot, (h.state d hnot).resolve_right fun ⟨_, hover, _⟩ ↦ ?_⟩
  have hover : s'.state? d = _ := hover
  rw [hover] at hd
  contradiction

/-- So is one without source text. -/
theorem state_of_source (h : s.InSequence root done (s', w)) (hb : s.Embarks s' w) (hd : s'.source? d = none) :
    s.state? d = none := by
  have hnone := state?_eq_none_iff.2 hd
  have hnot : d ∉ w.stack := fun hmem ↦ by
    rw [hb.evaluating d hmem] at hnone
    contradiction
  rcases h.state d hnot with hsame | ⟨-, hover, -⟩
  · exact hsame.symm.trans hnone
  · exact nomatch hover.symm.trans hnone

/-- From a module without source text a walk comes to no other one. -/
theorem following_of_source (h : s.InSequence root done (s', w)) (hb : s.Embarks s' w) (hd : s'.source? d = none) :
    s.following d = [] := by
  rw [following, if_neg]
  rw [status?_eq_map_state?, h.state_of_source hb hd]
  nofun

/-- A module that has failed by now had failed before. -/
theorem failure_of_failure (h : s.InSequence root done (s', w)) (hb : s.Embarks s' w) {e : ErrorId}
    (he : s'.failure? d = some e) : s.failure? d = some e := by
  have hnot : d ∉ w.stack := fun hmem ↦ by
    rw [failure?_of_state? (hb.evaluating d hmem)] at he
    contradiction
  have hstate : s'.state? d = s.state? d := (h.state d hnot).resolve_right fun ⟨_, hover, _⟩ ↦ by
    have hover : s'.state? d = _ := hover
    rw [failure?_of_state? hover] at he
    contradiction
  rcases h.progress d with hsame | ⟨-, hover⟩
  · rwa [failure?_congr hstate hsame] at he
  · have hover : s'.progress d = _ := hover
    rw [failure?, hover] at he
    rw [failure?, ← hstate]
    rcases hd : s'.state? d with _ | ⟨_, _⟩ <;> rw [hd] at he
    · contradiction
    · exact he

/-- A synthetic module whose steps have not been run has not failed. -/
theorem failure_of_unrun (h : s.InSequence root done (s', w)) (hb : s.Embarks s' w) (hd : s'.source? d = none)
    (hunrun : s'.isUnrun d = true) : s.failure? d = none := by
  have hstate := h.state_of_source hb hd
  obtain ⟨steps, hsteps⟩ : ∃ steps, s'.progress d = some (some steps, none) := by
    unfold isUnrun at hunrun
    split at hunrun
    · next steps hsteps => exact ⟨steps, hsteps⟩
    · contradiction
  rcases h.progress d with hsame | ⟨-, hover⟩
  · rw [failure?, hstate, ← hsame, show s'.progress d = _ from hsteps]
  · exact absurd (hover.symm.trans hsteps) (by simp)

/-- The walk passes by a module. -/
theorem pass (h : s.InSequence root done (s', w)) (hs : s.Poised) (hb : s.Embarks s' w) (ht : s'.Takes w d w')
    (hd : s'.isDue d = false) (hresembles : s'.Resembles s'') : s.InSequence root done (s'', w') := by
  obtain ⟨m, q, requests, rest, hf, hi, rfl⟩ := ht
  refine ⟨?_, h.passed, h.linked, fun x ↦ h.stacked_of_takes hf, fun x hx ↦ ?_, fun x ↦ ?_, fun x hx ↦ ?_,
    fun x hx hlinked ↦ ?_⟩
  · rw [hresembles.due, h.order_of_takes hs hb hf hi, ← remaining_skip (by simp [mem_due, hd])]
    rfl
  · rw [hresembles.state]
    exact h.state x hx
  · rw [hresembles.progress]
    exact h.progress x
  · rw [hresembles.progress]
    exact h.ran x hx
  · rw [hresembles.state]
    exact h.reached x hx hlinked

/-- The walk enters a module. -/
theorem enter (h : s.InSequence root done (s', w)) (hs : s.Poised) (hb : s.Embarks s' w) (ht : s'.Takes w d w')
    (hd : s'.status? d = some .linked)
    (hstate : ∀ x, s''.state? x = if x = d then some (.evaluating, none) else s'.state? x)
    (hprogress : ∀ x, s''.progress x = s'.progress x) :
    s.InSequence root done (s'',
      { frames := ⟨d, .executing, (s'.entries d).requests⟩ :: w'.frames
        stack := d :: w.stack
        index := w.index + 1 }) := by
  obtain ⟨m, q, requests, rest, hf, hi, rfl⟩ := ht
  obtain ⟨-, hreaches, -⟩ := h.given hs hb hf hi
  obtain ⟨hnot, hsame⟩ := h.state_of_linked hb hd
  have hlinked : s.status? d = some .linked := by
    rw [status?_eq_map_state?, ← hsame, ← status?_eq_map_state?, hd]
  have hdue : d ∈ s'.due := mem_due.2 (by simp [isDue, hd])
  have hother : ∀ x, x ≠ d → s''.state? x = s'.state? x := fun x hx ↦ by rw [hstate, if_neg hx]
  have hentered : s''.isDue d = false := by
    rw [Bool.eq_false_iff, ne_eq, isDue_of_state? ((hstate d).trans (if_pos rfl))]
    decide
  refine ⟨?_, h.passed, List.forall_mem_cons.2 ⟨⟨hlinked, hreaches⟩, h.linked⟩, ?_, fun x hx ↦ ?_, fun x ↦ ?_,
    fun x hx ↦ ?_, fun x hx hbefore ↦ ?_⟩
  · have houtlook : s.outlook ⟨d, .executing, (s'.entries d).requests⟩ = (d, s.following d) := by
      rw [outlook, hb.echoes.entries, following, if_pos hlinked]
      rfl
    rw [due_erase hentered fun x hx ↦ isDue_congr (hother x hx) (hprogress x), h.order_of_takes hs hb hf hi,
      ← remaining_enter hdue]
    simp only [List.map_cons, houtlook]
    rfl
  · refine List.forall_mem_cons.2 ⟨.inr ⟨_, List.mem_cons_self, rfl⟩, fun x hx ↦ ?_⟩
    refine (h.stacked_of_takes hf hx).imp_right ?_
    rintro ⟨f, hmem, hfx⟩
    exact ⟨f, List.mem_cons_of_mem _ hmem, hfx⟩
  · obtain ⟨hne, hx⟩ := not_or.1 (mt List.mem_cons.2 hx)
    rw [hother x hne]
    exact h.state x hx
  · rw [hprogress]
    exact h.progress x
  · rw [hprogress]
    exact h.ran x hx
  · refine (h.reached x hx hbefore).imp (List.mem_cons_of_mem d) fun hover ↦ (hother x ?_).trans hover
    rintro rfl
    rw [status?_eq_map_state?, show s'.state? x = _ from hover] at hd
    contradiction

/-- The steps of a synthetic module have been run. -/
theorem steps (h : s.InSequence root done (s', w)) (hs : s.Poised) (hb : s.Embarks s' w) (ht : s'.Takes w d w')
    (hd : s'.source? d = none) (hunrun : s'.isUnrun d = true) (hstate : ∀ x, s''.state? x = s'.state? x)
    (hprogress : ∀ x, s''.progress x = if x = d then some (none, some (.ok ())) else s'.progress x) :
    s.InSequence root (done ++ [d]) (s'', w') := by
  obtain ⟨m, q, requests, rest, hf, hi, rfl⟩ := ht
  have hdue : d ∈ s'.due := mem_due.2 (by simp [isDue, hunrun])
  have hover : s''.isDue d = false :=
    isDue_of_progress ((hstate d).trans (state?_eq_none_iff.2 hd)) ((hprogress d).trans (if_pos rfl))
  refine ⟨?_, fun x hx ↦ ?_, h.linked, fun x hx ↦ ?_, fun x hx ↦ ?_, fun x ↦ ?_, fun x hx hbefore ↦ ?_,
    fun x hx hlinked ↦ ?_⟩
  · rw [due_erase hover fun x hx ↦ isDue_congr (hstate x) ((hprogress x).trans (if_neg hx)),
      h.order_of_takes hs hb hf hi, remaining_leaf hdue (h.following_of_source hb hd), List.append_assoc]
    rfl
  · rcases List.mem_append.1 hx with hx | hx
    · exact h.passed x hx
    · rw [List.mem_singleton.1 hx]
      exact h.failure_of_unrun hb hd hunrun
  · exact (h.stacked_of_takes hf hx).imp_left (List.mem_append_left _)
  · rw [hstate]
    refine (h.state x hx).imp_right ?_
    rintro ⟨hl, ho, hz⟩
    exact ⟨hl, ho, fun z hxz ↦ List.mem_append_left _ (hz z hxz)⟩
  · rw [hprogress]
    split
    · next hx => exact .inr ⟨by simp [hx], rfl⟩
    · exact (h.progress x).imp_right (.imp_left (List.mem_append_left _))
  · rw [hprogress]
    split
    · rfl
    · next hne =>
      exact h.ran x ((List.mem_append.1 hx).resolve_right fun heq ↦ hne (List.mem_singleton.1 heq)) hbefore
  · rw [hstate]
    refine h.reached x (hx.imp_right fun hx ↦ (List.mem_append.1 hx).resolve_right fun heq ↦ ?_) hlinked
    rw [List.mem_singleton.1 heq, status?_eq_map_state?, h.state_of_source hb hd] at hlinked
    contradiction

/-- What is known of the modules that a walk has come to the end of. -/
theorem through (h : s.InSequence root done (s', w)) (hs : s.Poised) (hb : s.Embarks s' w)
    (hf : w.frames = ⟨m, .executing, []⟩ :: rest) :
    s.evaluationOrder root = (done ++ [m]) ++ remaining s.following s'.due (rest.map s.outlook) ∧
      (∀ x ∈ done ++ [m], s.failure? x = none) ∧ (∀ x ∈ w.stack, x ∈ done ++ [m] ∨ ∃ f ∈ rest, f.module = x) ∧
      (∀ x ∈ done ++ [m], s.isUnrun x = true → s'.progress x = some (none, some (.ok ()))) ∧
      ∀ x, x = root ∨ x ∈ done ++ [m] → s.status? x = some .linked →
        x ∈ w.stack ∨ s'.state? x = some (.evaluated, none) := by
  have hmem : (⟨m, .executing, []⟩ : EvaluationFrame) ∈ w.frames := hf ▸ List.mem_cons_self
  have hlinked := (h.linked m (hb.mem_stack _ hmem)).1
  refine ⟨?_, fun x hx ↦ ?_, fun x hx ↦ ?_, fun x hx hunrun ↦ ?_, fun x hx hbefore ↦ ?_⟩
  · have horder := h.order
    have houtlook : s.outlook ⟨m, .executing, []⟩ = (m, []) := rfl
    rw [hf, List.map_cons, houtlook, remaining_through] at horder
    rw [horder, List.append_assoc]
    rfl
  · rcases List.mem_append.1 hx with hx | hx
    · exact h.passed x hx
    · rw [List.mem_singleton.1 hx]
      exact hs.clean m hlinked
  · rcases h.stacked x hx with hx | ⟨f, hmem, rfl⟩
    · exact .inl (List.mem_append_left _ hx)
    · have hmem : f ∈ w.frames := hmem
      rw [hf] at hmem
      rcases List.mem_cons.1 hmem with rfl | hmem
      · exact .inl (List.mem_append_right _ List.mem_cons_self)
      · exact .inr ⟨f, hmem, rfl⟩
  · rcases List.mem_append.1 hx with hx | hx
    · exact h.ran x hx hunrun
    · rw [List.mem_singleton.1 hx, isUnrun_of_linked hlinked] at hunrun
      contradiction
  · by_cases hxm : x = m
    · exact .inl (hxm ▸ hb.mem_stack _ hmem)
    · exact h.reached x (hx.imp_right fun hx ↦ (List.mem_append.1 hx).resolve_right (hxm ∘ List.mem_singleton.1)) hbefore

/-- A module has been executed, and stays on the stack. -/
theorem stay (h : s.InSequence root done (s', w)) (hs : s.Poised) (hb : s.Embarks s' w)
    (hf : w.frames = ⟨m, .executing, []⟩ :: rest) (hresembles : s'.Resembles s'') :
    s.InSequence root (done ++ [m]) (s'', { w with frames := rest }) := by
  obtain ⟨horder, hpassed, hstacked, hran, hreached⟩ := h.through hs hb hf
  refine ⟨hresembles.due ▸ horder, hpassed, h.linked, hstacked, fun x hx ↦ ?_, fun x ↦ ?_, fun x hx ↦ ?_,
    fun x hx hlinked ↦ ?_⟩
  · rw [hresembles.state]
    exact (h.state x hx).imp_right fun ⟨hl, ho, hz⟩ ↦ ⟨hl, ho, fun z hxz ↦ List.mem_append_left _ (hz z hxz)⟩
  · rw [hresembles.progress]
    exact (h.progress x).imp_right (.imp_left (List.mem_append_left _))
  · rw [hresembles.progress]
    exact hran x hx
  · rw [hresembles.state]
    exact hreached x hx hlinked

/-- A module has been executed, and its component taken off the stack. -/
theorem pop {above below : List ModuleId} {index : ModuleId → ℕ} (h : s.InSequence root done (s', w)) (hs : s.Poised)
    (hb : s.Embarks s' w) (hf : w.frames = ⟨m, .executing, []⟩ :: rest)
    (hpops : PopsComponent s'.Requests index w.stack (rest.map (·.module)) m above below)
    (hstate : ∀ x, s''.state? x = if x ∈ above ++ [m] then some (.evaluated, none) else s'.state? x)
    (hprogress : ∀ x, s''.progress x = s'.progress x) :
    s.InSequence root (done ++ [m]) (s'', { w with frames := rest, stack := below }) := by
  obtain ⟨horder, hpassed, hstacked, hran, hreached⟩ := h.through hs hb hf
  have hsplit : w.stack = (above ++ [m]) ++ below := by rw [hpops.split, List.append_assoc]; rfl
  have hdisjoint : ∀ x ∈ above ++ [m], x ∉ below := fun x hx hmem ↦
    (List.nodup_append.1 (hsplit ▸ hpops.nodup)).2.2 x hx x hmem rfl
  have htop : ∀ x ∈ above ++ [m], x ∈ w.stack := fun x hx ↦ hsplit ▸ List.mem_append_left _ hx
  have hbelow : ∀ x ∈ below, x ∈ w.stack := fun x hx ↦ hsplit ▸ List.mem_append_right _ hx
  have hdue : s''.due = s'.due := due_congr fun x ↦ by
    by_cases hx : x ∈ above ++ [m]
    · have hover := isDue_of_state? ((hstate x).trans (if_pos hx))
      have hbefore := isDue_of_state? (hb.evaluating x (htop x hx))
      rw [Bool.eq_iff_iff, hover, hbefore]
      exact iff_of_false nofun nofun
    · exact isDue_congr ((hstate x).trans (if_neg hx)) (hprogress x)
  have hrequests : ∀ x y, s.Reaches x y → s'.Reaches x y := Relation.ReflTransGen.mono fun x y ⟨q, hq, hi⟩ ↦
    ⟨q, (hb.echoes.entries x).symm ▸ hq, hb.echoes.grows x q y hi⟩
  refine ⟨hdue ▸ horder, hpassed, fun x hx ↦ h.linked x (hbelow x hx), fun x hx ↦ hstacked x (hbelow x hx),
    fun x hx ↦ ?_, fun x ↦ ?_, fun x hx ↦ ?_, fun x hx hlinked ↦ ?_⟩
  · rw [hstate]
    split
    · next hx =>
      refine .inr ⟨(h.linked x (htop x hx)).1, rfl, fun z ⟨hxz, hzx⟩ ↦ ?_⟩
      obtain ⟨hmx, hxm⟩ := (hpops.component x).1 hx
      have hz : z ∈ above ++ [m] :=
        (hpops.component z).2 ⟨hmx.trans (hrequests _ _ hxz), (hrequests _ _ hzx).trans hxm⟩
      refine (hstacked z (htop z hz)).resolve_right fun ⟨f, hf, hfz⟩ ↦ hdisjoint z hz ?_
      exact hfz ▸ hpops.finished _ (List.mem_map_of_mem hf)
    · next hnot =>
      have hx : x ∉ w.stack := fun hmem ↦ (List.mem_append.1 (hsplit ▸ hmem)).elim hnot hx
      exact (h.state x hx).imp_right fun ⟨hl, ho, hz⟩ ↦ ⟨hl, ho, fun z hxz ↦ List.mem_append_left _ (hz z hxz)⟩
  · rw [hprogress]
    exact (h.progress x).imp_right (.imp_left (List.mem_append_left _))
  · rw [hprogress]
    exact hran x hx
  · rw [hstate]
    split
    · exact .inr rfl
    · next hnot =>
      exact (hreached x hx hlinked).imp_left fun hmem ↦ (List.mem_append.1 (hsplit ▸ hmem)).resolve_left hnot

/-- With each body, one more module has been gone through. -/
theorem wends {l : List Incident} {y : Store × EvaluationWalk} (h : s.InSequence root done (s', w)) (hs : s.Poised)
    (hb : s.Embarks s' w) (hw : s'.Wends w l y) :
    ∃ more, l = more.map .begins ∧ s.InSequence root (done ++ more) y := by
  cases hw with
  | pass ht hd hresembles => exact ⟨[], rfl, by simpa using h.pass hs hb ht hd hresembles⟩
  | enter ht hd hstate hprogress => exact ⟨[], rfl, by simpa using h.enter hs hb ht hd hstate hprogress⟩
  | @steps d w' s'' ht hd hunrun hstate hprogress =>
    exact ⟨[d], rfl, h.steps hs hb ht hd hunrun hstate hprogress⟩
  | @stay m rest s'' hf hresembles => exact ⟨[m], rfl, h.stay hs hb hf hresembles⟩
  | @pop m rest above below index s'' hf hpops hstate hprogress =>
    exact ⟨[m], rfl, h.pop hs hb hf hpops hstate hprogress⟩

/-- A walk fails at the next module in the order. It has failed before, or its body throws. -/
theorem founders {l : List Incident} {e : ErrorId} (h : s.InSequence root done (s', w)) (hs : s.Poised)
    (hb : s.Embarks s' w) (hf : s'.Founders w l d e s'') :
    (∃ rest, s.evaluationOrder root = done ++ d :: rest) ∧
      (s.failure? d = some e ∧ l = [] ∨ s.failure? d = none ∧ l = [.begins d, .throws d e]) ∧
      ∀ x, s''.state? x = s'.state? x := by
  cases hf with
  | met ht he =>
    obtain ⟨m, q, requests, rest, hf, hi, rfl⟩ := ht
    have hbefore := h.failure_of_failure hb he
    have hdue : d ∈ s'.due := mem_due.2 (by simp [isDue, he])
    have hleaf : s.following d = [] := by
      rw [following, if_neg]
      intro hlinked
      rw [hs.clean d hlinked] at hbefore
      contradiction
    have horder := h.order_of_takes hs hb hf hi
    rw [remaining_leaf hdue hleaf] at horder
    exact ⟨⟨_, horder⟩, .inl ⟨hbefore, rfl⟩, fun _ ↦ rfl⟩
  | steps ht hd hunrun hstate _ _ =>
    obtain ⟨m, q, requests, rest, hf, hi, rfl⟩ := ht
    have hdue : d ∈ s'.due := mem_due.2 (by simp [isDue, hunrun])
    have horder := h.order_of_takes hs hb hf hi
    rw [remaining_leaf hdue (h.following_of_source hb hd)] at horder
    exact ⟨⟨_, horder⟩, .inr ⟨h.failure_of_unrun hb hd hunrun, rfl⟩, hstate⟩
  | execute hf hresembles _ =>
    obtain ⟨horder, hpassed, -⟩ := h.through hs hb hf
    refine ⟨⟨_, horder.trans (List.append_assoc _ _ _)⟩, .inr ⟨?_, rfl⟩, hresembles.state⟩
    exact hpassed d (List.mem_append_right _ List.mem_cons_self)

/-- The component of a module on the stack has not been gone through as a whole. -/
theorem exists_mutual_not_mem {index low : ModuleId → ℕ} (h : s.InSequence root done (s', w)) (hs : s.Poised)
    (hb : s.Embarks s' w) (hwoven : Woven s'.Requests index low w.stack (w.frames.map (·.module))) (hx : x ∈ w.stack) :
    ∃ p, Mutual s.Requests x p ∧ p ∉ done := by
  obtain ⟨p, hp, hpx, hxp⟩ := hwoven.exists_mutual hx
  have hleads : ∀ {y z : ModuleId}, y ∈ w.stack → s'.Reaches y z → s.Reaches y z := fun hy hyz ↦
    (hb.echoes.leads hs.rounded (linked_of_status? (h.linked _ hy).1).old).1 hyz
  refine ⟨p, ⟨hleads hx hxp, hleads (hwoven.mem p hp) hpx⟩, fun hdone ↦ ?_⟩
  obtain ⟨f, hf, rfl⟩ := List.mem_map.1 hp
  have hnodup : (postorder s.following s.due [root]).Nodup := nodup_postorder
  rw [show postorder _ _ _ = _ from h.order] at hnodup
  exact (List.nodup_append.1 hnodup).2.2 _ hdone _ (mem_remaining (List.mem_map_of_mem hf)) rfl

end InSequence

end Store

end EcmaModules
