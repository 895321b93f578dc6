import EcmaModules.Proofs.Evolving

/-!
# Components

Modules that request each other in a circle are complete together. A walk takes a module off its
stack when the module leads back to nothing below it there, and then takes off all that lies above
as well; so whatever these modules request is off the stack by then. What is kept about a walk for
that is how its stack is laid out: above each module of its path lie those that the walk came to
from there, and the earliest point that any of these leads back to is known at the module.

That the modules taken off together form one circle plays no part. What matters is that the modules
of a circle are never taken off one by one.
-/

namespace EcmaModules

namespace Store

/-- The module that stands for the component of a module that is complete. -/
def root? (s : Store) (m : ModuleId) : Option ModuleId := (s.source? m).bind (·.cycleRoot)

/-- The point at which the walk has come to the module. -/
def depth (s : Store) (m : ModuleId) : Nat := ((s.source? m).map (·.dfsIndex)).getD 0

/-- The earliest point that the module is known to lead back to. -/
def low (s : Store) (m : ModuleId) : Nat := ((s.source? m).map (·.dfsAncestorIndex)).getD 0

/-- A module requests another one. -/
def Requests (s : Store) (x y : ModuleId) : Prop :=
  ∃ q ∈ (s.entries x).requests, s.imported? x q = some y

/-- A module requests another one, directly or not. -/
abbrev Reaches (s : Store) : ModuleId → ModuleId → Prop := Relation.ReflTransGen s.Requests

/-! ## Complete components -/

/-- The modules whose components are complete: nothing leads from them to what is not. -/
structure Complete (s : Store) : Prop where
  settling : ∀ x r, s.source? x = some r → r.cycleRoot.isSome → r.status.isSettling = true
  requests : ∀ x, (s.root? x).isSome → ∀ q ∈ (s.entries x).requests, ∃ y, s.imported? x q = some y ∧
    ((s.source? y).isSome → (s.root? y).isSome)

/-- The modules of a circle are represented by the same module, once they are complete. -/
structure Shared (s : Store) : Prop where
  own : ∀ x c, s.root? x = some c → s.root? c = some c
  shared : ∀ x y, (s.root? x).isSome → s.Reaches x y → s.Reaches y x → s.root? y = s.root? x

variable {s s' : Store} {x y : ModuleId} {r : SourceText}

theorem root?_eq (hx : s.source? x = some r) : s.root? x = r.cycleRoot := by
  rw [root?, hx]
  rfl

theorem source_of_root (hx : (s.root? x).isSome) :
    ∃ r, s.source? x = some r ∧ r.cycleRoot.isSome := by
  rcases hr : s.source? x with _ | r
  · simp [root?, hr] at hx
  · exact ⟨r, rfl, by rwa [root?_eq hr] at hx⟩

theorem source_of_requests (h : s.Requests x y) : (s.source? x).isSome := by
  obtain ⟨q, -, hy⟩ := h
  rcases hr : s.source? x with _ | r
  · simp [imported?, hr] at hy
  · rfl

theorem Rests.root (h : s.Rests s') (x : ModuleId) : s'.root? x = s.root? x := by
  have hx := h.each x
  unfold root?
  revert hx
  cases s.source? x <;> cases s'.source? x <;> rintro ⟨⟩
  · rfl
  · next hr => exact hr.cycleRoot

end Store

/-! ### Modules that stay where they are -/

/-- For walks the module is where it was, and it is complete if it was so before. -/
structure SourceText.Dwells (r r' : SourceText) : Prop where
  entries : r'.entries = r.entries
  cycleRoot : r'.cycleRoot.isSome = r.cycleRoot.isSome
  settling : r.status.isSettling = true → r'.status.isSettling = true
  index : r.status.isWalked = true → r'.dfsIndex = r.dfsIndex
  ancestor : r.status.isWalked = true → r'.dfsAncestorIndex ≤ r.dfsAncestorIndex

namespace Store

variable {s s' : Store} {x y : ModuleId} {r : SourceText}

/-- For walks modules are where they were, and those are complete that were so before. What was loaded for
requests has not changed. -/
structure Dwells (s s' : Store) : Prop where
  each : s.Each SourceText.Dwells s'
  grows : Grows s s'

theorem Rests.dwells (h : s.Rests s') : s.Dwells s' :=
  ⟨h.each.mono fun _ _ hr ↦ ⟨hr.entries, congrArg Option.isSome hr.cycleRoot, fun hs ↦ (hr.settling hs).1,
    hr.index, hr.ancestor⟩, h.grows⟩

namespace Dwells

/-- A module that is complete may come to stand for itself. -/
theorem detach {w : EvaluationWalk} {d : ModuleId} (hd : s.status? d = some .evaluated → (s.root? d).isSome) :
    s.Dwells (EvaluationWalk.detach s w d) := by
  have hrefl : ∀ r : SourceText, r.Dwells r := fun _ ↦
    ⟨rfl, rfl, id, fun _ ↦ rfl, fun _ ↦ Nat.le_refl _⟩
  refine ⟨?_, fun x q y hy ↦ ?_⟩
  · unfold EvaluationWalk.detach
    split
    · next hover =>
      have hroot := hd (by simpa using hover : _ ∧ _).1
      refine Each.modifySource hrefl s d fun r hr ↦ ?_
      rw [root?_eq hr] at hroot
      exact ⟨rfl, hroot.symm, id, fun _ ↦ rfl, fun _ ↦ Nat.le_refl _⟩
    · exact Each.refl hrefl s
  · rwa [SameImports.of_each ((Store.Stands.detach s w d).mono fun _ _ hr ↦ hr.loaded)]

theorem isSome (h : s.Dwells s') (x : ModuleId) : (s'.source? x).isSome = (s.source? x).isSome := by
  have hx := h.each x
  revert hx
  cases s.source? x <;> cases s'.source? x <;> rintro ⟨⟩ <;> rfl

theorem root (h : s.Dwells s') (x : ModuleId) : (s'.root? x).isSome = (s.root? x).isSome := by
  have hx := h.each x
  unfold root?
  revert hx
  cases s.source? x <;> cases s'.source? x <;> rintro ⟨⟩
  · rfl
  · next hr => exact hr.cycleRoot

theorem entries (h : s.Dwells s') (x : ModuleId) : s'.entries x = s.entries x := by
  have hx := h.each x
  unfold Store.entries
  revert hx
  cases s.source? x <;> cases s'.source? x <;> rintro ⟨⟩
  · rfl
  · next hr => exact hr.entries

theorem depth (h : s.Dwells s') (hx : s.source? x = some r) (hw : r.status.isWalked = true) :
    s'.depth x = s.depth x := by
  obtain ⟨r', hr', hdwells⟩ := h.each.after hx
  rw [Store.depth, Store.depth, hr', hx]
  exact hdwells.index hw

theorem low (h : s.Dwells s') (hx : s.source? x = some r) (hw : r.status.isWalked = true) :
    s'.low x ≤ s.low x := by
  obtain ⟨r', hr', hdwells⟩ := h.each.after hx
  rw [Store.low, Store.low, hr', hx]
  exact hdwells.ancestor hw

end Dwells

namespace Complete

/-- What is complete leads to what is complete only. -/
theorem root_of_reaches (h : s.Complete) (hx : (s.root? x).isSome) (hxy : s.Reaches x y)
    (hy : (s.source? y).isSome) : (s.root? y).isSome := by
  induction hxy with
  | refl => exact hx
  | tail _ hstep ih =>
    obtain ⟨q, hq, hi⟩ := hstep
    obtain ⟨y', hy', hroot⟩ := h.requests _ (ih (source_of_requests ⟨q, hq, hi⟩)) q hq
    obtain rfl := Option.some.inj (hi.symm.trans hy')
    exact hroot hy

/-- Nothing more is loaded for what is complete. -/
theorem reaches (h : s.Complete) (hs : s.Dwells s') (hx : (s.root? x).isSome)
    (hxy : s'.Reaches x y) : s.Reaches x y := by
  induction hxy with
  | refl => exact .refl
  | tail _ hstep ih =>
    refine ih.tail ?_
    have hsource := (hs.isSome _).symm.trans (source_of_requests hstep)
    obtain ⟨q, hq, hi⟩ := hstep
    rw [hs.entries] at hq
    obtain ⟨y', hy', -⟩ := h.requests _ (h.root_of_reaches hx ih hsource) q hq
    refine ⟨q, hq, hy'.trans ?_⟩
    rw [← hi, hs.grows _ _ _ hy']

theorem keep (h : s.Complete) (hs : s.Dwells s') : s'.Complete where
  settling x r' hr' hroot := by
    obtain ⟨r, hr, hdwells⟩ := hs.each.before hr'
    exact hdwells.settling (h.settling x r hr (hdwells.cycleRoot ▸ hroot))
  requests x hx q hq := by
    rw [hs.root] at hx
    rw [hs.entries] at hq
    obtain ⟨y, hy, hroot⟩ := h.requests x hx q hq
    refine ⟨y, hs.grows _ _ _ hy, fun hsome ↦ ?_⟩
    rw [hs.root]
    exact hroot (hs.isSome y ▸ hsome)

end Complete

theorem Shared.keep (h : s.Shared) (hc : s.Complete) (hs : s.Rests s') : s'.Shared where
  own x c hc := by
    rw [hs.root] at hc ⊢
    exact h.own x c hc
  shared x y hx hxy hyx := by
    rw [hs.root] at hx
    have hxy := hc.reaches hs.dwells hx hxy
    rw [hs.root, hs.root]
    rcases Relation.ReflTransGen.cases_head hyx with rfl | ⟨z, hyz, -⟩
    · rfl
    · have hsource := (hs.dwells.isSome y).symm.trans (source_of_requests hyz)
      have hy := hc.root_of_reaches hx hxy hsource
      exact h.shared x y hx hxy (hc.reaches hs.dwells hy hyx)

end Store

/-! ## The walk -/

/-- The walk has the request of the module before it. -/
def EvaluationWalk.ToDo (w : EvaluationWalk) (x : ModuleId) (q : Request) : Prop :=
  ∃ f ∈ w.frames, f.module = x ∧ q ∈ f.requests

/-- The walk is just going from the module on top of its path to another one, or coming back from
there. -/
def Tour.Opens (τ : Tour) (x y : ModuleId) : Prop :=
  ((∃ t, τ.stance = .coming y t) ∨ τ.stance = .back y) ∧
    ∃ f rest, τ.walk.frames = f :: rest ∧ f.module = x

/-- The walk has been to one module from another. -/
def Tour.Done (s : Store) (τ : Tour) (x y : ModuleId) : Prop :=
  ∃ q ∈ (s.entries x).requests, ¬τ.walk.ToDo x q ∧ s.imported? x q = some y ∧ ¬τ.Opens x y

/-- How a stack is laid out along a path: above each module of the path are those that the walk came
to from there, and the module is known to lead back at least as far as all of these do. -/
inductive Laid (s : Store) (R : ModuleId → ModuleId → Prop) :
    List ModuleId → List ModuleId → Prop where
  | nil : Laid s R [] []
  | cons {p : ModuleId} {path seg stack : List ModuleId} : Laid s R path stack →
      (∀ x ∈ seg ++ [p], ∀ y ∈ seg ++ p :: stack, R x y → s.low p ≤ s.depth y) →
      Laid s R (p :: path) (seg ++ p :: stack)

/-- What is kept about a walk. -/
structure Tour.Kept (s : Store) (τ : Tour) : Prop where
  laid : Laid s (τ.Done s) τ.path τ.walk.stack
  sorted : τ.walk.stack.Pairwise fun x y ↦ s.depth y < s.depth x
  bound : ∀ x ∈ τ.walk.stack, s.depth x < τ.walk.index
  low : ∀ x ∈ τ.walk.stack, s.low x ≤ s.depth x
  loaded : ∀ x ∈ τ.walk.stack, ∀ q ∈ (s.entries x).requests, ¬τ.walk.ToDo x q →
    (s.imported? x q).isSome
  leads : ∀ x ∈ τ.walk.stack, ∀ y, τ.Done s x y → (s.source? y).isSome →
    (s.root? y).isSome ∨ y ∈ τ.walk.stack
  back : ∀ d, τ.stance = .back d → (s.root? d).isSome ∨ d ∈ τ.walk.stack

namespace Laid

variable {s s' : Store} {R R' : ModuleId → ModuleId → Prop} {path stack : List ModuleId}

theorem mono (h : Laid s R path stack) (hR : ∀ x ∈ stack, ∀ y ∈ stack, R' x y → R x y)
    (hlow : ∀ x ∈ stack, s'.low x ≤ s.low x) (hdepth : ∀ x ∈ stack, s'.depth x = s.depth x) :
    Laid s' R' path stack := by
  induction h with
  | nil => exact .nil
  | @cons p path seg stack _ hp ih =>
    have hsub : stack ⊆ seg ++ p :: stack := fun x hx ↦
      List.mem_append_right _ (List.mem_cons_of_mem _ hx)
    have hmem : p ∈ seg ++ p :: stack := List.mem_append_right _ List.mem_cons_self
    refine .cons (ih (fun x hx y hy ↦ hR x (hsub hx) y (hsub hy)) (fun x hx ↦ hlow x (hsub hx))
      fun x hx ↦ hdepth x (hsub hx)) fun x hx y hy hxy ↦ ?_
    have hx' : x ∈ seg ++ p :: stack := by
      simp only [List.mem_append, List.mem_cons, List.not_mem_nil, or_false] at hx ⊢
      exact hx.imp id .inl
    rw [hdepth y hy]
    exact (hlow p hmem).trans (hp x hx y hy (hR x hx' y hy hxy))

theorem subset (h : Laid s R path stack) : path ⊆ stack := by
  induction h with
  | nil => exact List.Subset.refl _
  | cons _ _ ih =>
    refine List.cons_subset.2 ⟨List.mem_append_right _ List.mem_cons_self, fun x hx ↦ ?_⟩
    exact List.mem_append_right _ (List.mem_cons_of_mem _ (ih hx))

theorem of_cons {p : ModuleId} (h : Laid s R (p :: path) stack) : ∃ seg stack',
    stack = seg ++ p :: stack' ∧ Laid s R path stack' ∧
      ∀ x ∈ seg ++ [p], ∀ y ∈ seg ++ p :: stack', R x y → s.low p ≤ s.depth y := by
  cases h with
  | cons hpath hp => exact ⟨_, _, rfl, hpath, hp⟩

/-- The module on top of the path leads back to more, and that is known. -/
theorem head {p : ModuleId} (h : Laid s R (p :: path) stack) (hnodup : stack.Nodup)
    (hR : ∀ x ∈ stack, ∀ y ∈ stack, R' x y → R x y ∨ x = p ∧ s.low p ≤ s.depth y) :
    Laid s R' (p :: path) stack := by
  obtain ⟨seg, stack', rfl, hpath, hp⟩ := h.of_cons
  obtain ⟨hnot, -⟩ := List.nodup_cons.1 (List.nodup_append.1 hnodup).2.1
  have hsub : stack' ⊆ seg ++ p :: stack' := fun x hx ↦
    List.mem_append_right _ (List.mem_cons_of_mem _ hx)
  refine .cons (hpath.mono (fun x hx y hy hxy ↦ ?_) (fun _ _ ↦ Nat.le_refl _) fun _ _ ↦ rfl)
    fun x hx y hy hxy ↦ ?_
  · refine (hR x (hsub hx) y (hsub hy) hxy).resolve_right fun hxp ↦ hnot ?_
    exact hxp.1 ▸ hx
  · have hx' : x ∈ seg ++ p :: stack' := by
      simp only [List.mem_append, List.mem_cons, List.not_mem_nil, or_false] at hx ⊢
      exact hx.imp id .inl
    rcases hR x hx' y hy hxy with hxy | ⟨-, hlow⟩
    · exact hp x hx y hy hxy
    · exact hlow

/-- What lies above the module on top of the path comes to lie above the one below that. -/
theorem merge {d f : ModuleId} (h : Laid s R (d :: f :: path) stack)
    (hsorted : stack.Pairwise fun x y ↦ s.depth y < s.depth x)
    (hbound : ∀ x ∈ stack, s.low x ≤ s.depth x) (hlow : s.low f ≤ s.low d) :
    Laid s R (f :: path) stack := by
  obtain ⟨seg, stack₁, rfl, hpath, hd⟩ := h.of_cons
  obtain ⟨seg₁, stack₂, rfl, hpath, hf⟩ := hpath.of_cons
  have hsplit : seg ++ d :: (seg₁ ++ f :: stack₂) = (seg ++ d :: seg₁) ++ f :: stack₂ := by simp
  rw [hsplit] at hsorted hbound hd ⊢
  refine .cons hpath fun x hx y hy hxy ↦ ?_
  by_cases hxd : x ∈ seg ++ [d]
  · exact hlow.trans (hd x hxd y hy hxy)
  · have hx₁ : x ∈ seg₁ ++ [f] := by
      simp only [List.mem_append, List.mem_cons, List.not_mem_nil, or_false] at hx hxd ⊢
      tauto
    rcases List.mem_append.1 hy with hy | hy
    · -- it lies above the one below, which leads back to itself at least
      have habove := (List.pairwise_append.1 hsorted).2.2 y hy f List.mem_cons_self
      exact (hbound f (List.mem_append_right _ List.mem_cons_self)).trans habove.le
    · exact hf x hx₁ y (List.mem_append_right _ hy) hxy

end Laid

namespace Tour.Kept

variable {s s' : Store} {τ τ' : Tour}

/-- The walk stays where it is, and so do modules. -/
theorem dwells (h : τ.Kept s) (hs : s.Dwells s')
    (hwalked : ∀ x ∈ τ.walk.stack, ∃ r, s.source? x = some r ∧ r.status.isWalked = true) :
    τ.Kept s' := by
  have hdepth : ∀ x ∈ τ.walk.stack, s'.depth x = s.depth x := fun x hx ↦ by
    obtain ⟨r, hr, hw⟩ := hwalked x hx
    exact hs.depth hr hw
  have hlow : ∀ x ∈ τ.walk.stack, s'.low x ≤ s.low x := fun x hx ↦ by
    obtain ⟨r, hr, hw⟩ := hwalked x hx
    exact hs.low hr hw
  have hdone : ∀ x ∈ τ.walk.stack, ∀ y, τ.Done s' x y → τ.Done s x y := by
    rintro x hx y ⟨q, hq, htodo, hi, hopen⟩
    rw [hs.entries] at hq
    obtain ⟨y', hy'⟩ := Option.isSome_iff_exists.1 (h.loaded x hx q hq htodo)
    obtain rfl := Option.some.inj (hi.symm.trans (hs.grows _ _ _ hy'))
    exact ⟨q, hq, htodo, hy', hopen⟩
  refine ⟨h.laid.mono (fun x hx y _ ↦ hdone x hx y) hlow hdepth, ?_, fun x hx ↦ ?_, fun x hx ↦ ?_,
    fun x hx q hq htodo ↦ ?_, fun x hx y hxy hsome ↦ ?_, fun d hd ↦ ?_⟩
  · refine h.sorted.imp_of_mem fun {x y} hx hy hlt ↦ ?_
    rwa [hdepth x hx, hdepth y hy]
  · rw [hdepth x hx]
    exact h.bound x hx
  · rw [hdepth x hx]
    exact (hlow x hx).trans (h.low x hx)
  · rw [hs.entries] at hq
    obtain ⟨y, hy⟩ := Option.isSome_iff_exists.1 (h.loaded x hx q hq htodo)
    exact Option.isSome_of_mem (hs.grows _ _ _ hy)
  · rw [hs.root]
    exact h.leads x hx y (hdone x hx y hxy) (hs.isSome y ▸ hsome)
  · rw [hs.root]
    exact h.back d hd

/-- The walk goes on with the same path. -/
theorem stance (h : τ.Kept s) (hpath : τ'.path = τ.path)
    (hwalk : τ'.walk.stack = τ.walk.stack ∧ τ'.walk.index = τ.walk.index)
    (htodo : ∀ x ∈ τ.walk.stack, ∀ q, ¬τ'.walk.ToDo x q →
      ¬τ.walk.ToDo x q ∨ (s.imported? x q).isSome)
    (hdone : ∀ x ∈ τ.walk.stack, ∀ y, τ'.Done s x y → τ.Done s x y ∨
      ((s.source? y).isSome → (s.root? y).isSome ∧ y ∉ τ.walk.stack))
    (hsource : ∀ x ∈ τ.walk.stack, (s.source? x).isSome)
    (hback : ∀ d, τ'.stance = .back d → (s.root? d).isSome ∨ d ∈ τ.walk.stack) : τ'.Kept s := by
  obtain ⟨hstack, hindex⟩ := hwalk
  constructor
  · rw [hpath, hstack]
    refine h.laid.mono (fun x hx y hy hxy ↦ ?_) (fun _ _ ↦ Nat.le_refl _) fun _ _ ↦ rfl
    exact (hdone x hx y hxy).resolve_right fun hy' ↦ (hy' (hsource y hy)).2 hy
  · rw [hstack]
    exact h.sorted
  · rw [hstack, hindex]
    exact h.bound
  · rw [hstack]
    exact h.low
  · rw [hstack]
    intro x hx q hq hnot
    exact (htodo x hx q hnot).elim (h.loaded x hx q hq) id
  · rw [hstack]
    intro x hx y hxy hsome
    rcases hdone x hx y hxy with hxy | hy
    · exact h.leads x hx y hxy hsome
    · exact .inl (hy hsome).1
  · rw [hstack]
    exact hback

/-! ### Moves of the walk -/

variable {goal : EvaluationGoal} {st st' : Stance} {w : EvaluationWalk} {d m : ModuleId}
  {t : Traversal} {f : EvaluationFrame} {rest : List EvaluationFrame}

/-- The walk turns to something else, and thereby is done with going to a module, or begins to. -/
theorem turn (h : Tour.Kept s ⟨goal, st, w⟩) (htop : st'.top = st.top)
    (hopen : ∀ x y, Tour.Opens ⟨goal, st, w⟩ x y → ¬Tour.Opens ⟨goal, st', w⟩ x y →
      (s.source? y).isSome → (s.root? y).isSome ∧ y ∉ w.stack)
    (hsource : ∀ x ∈ w.stack, (s.source? x).isSome)
    (hback : ∀ d, st' = .back d → (s.root? d).isSome ∨ d ∈ w.stack) :
    Tour.Kept s ⟨goal, st', w⟩ := by
  refine h.stance ?_ ⟨rfl, rfl⟩ (fun x _ q hq ↦ .inl hq) ?_ hsource hback
  · rw [Tour.path, Tour.path]
    exact congrArg (· ++ w.frames.map (·.module)) htop
  · rintro x hx y ⟨q, hq, htodo, hi, hnot⟩
    by_cases hxy : Tour.Opens ⟨goal, st, w⟩ x y
    · exact .inr (hopen x y hxy hnot)
    · exact .inl ⟨q, hq, htodo, hi, hxy⟩

theorem opens_of_back {x y : ModuleId} (h : Tour.Opens ⟨goal, .back d, w⟩ x y)
    (hf : w.frames = f :: rest) : x = f.module ∧ y = d := by
  obtain ⟨hst, f', rest', hf', rfl⟩ := h
  obtain ⟨rfl, rfl⟩ := List.cons.inj (hf.symm.trans hf')
  refine ⟨rfl, ?_⟩
  rcases hst with ⟨t, hst⟩ | hst
  · exact nomatch hst
  · exact (Stance.back.inj hst).symm

/-- The walk takes the next request. -/
theorem request {r : Request} {rs : List Request} (h : Tour.Kept s ⟨goal, .here, w⟩)
    (hf : w.frames = ⟨m, t, r :: rs⟩ :: rest) (hd : s.imported? m r = some d) (t' : Traversal)
    (hsource : ∀ x ∈ w.stack, (s.source? x).isSome) :
    Tour.Kept s ⟨goal, .coming d t', { w with frames := ⟨m, t, rs⟩ :: rest }⟩ := by
  have htodo : ∀ x q, EvaluationWalk.ToDo w x q →
      EvaluationWalk.ToDo { w with frames := ⟨m, t, rs⟩ :: rest } x q ∨ x = m ∧ q = r := by
    rintro x q ⟨g, hg, rfl, hq⟩
    rw [hf] at hg
    rcases List.mem_cons.1 hg with rfl | hg
    · rcases List.mem_cons.1 hq with rfl | hq
      · exact .inr ⟨rfl, rfl⟩
      · exact .inl ⟨_, List.mem_cons_self, rfl, hq⟩
    · exact .inl ⟨g, List.mem_cons_of_mem _ hg, rfl, hq⟩
  refine h.stance ?_ ⟨rfl, rfl⟩ (fun x _ q hq ↦ ?_) ?_ hsource (by simp)
  · simp [Tour.path, Stance.top, hf]
  · by_cases hold : EvaluationWalk.ToDo w x q
    · obtain ⟨rfl, rfl⟩ := (htodo x q hold).resolve_left hq
      exact .inr (Option.isSome_of_mem hd)
    · exact .inl hold
  · rintro x hx y ⟨q, hq, hnot, hi, hopen⟩
    refine .inl ⟨q, hq, fun hold ↦ ?_, hi, ?_⟩
    · obtain ⟨rfl, rfl⟩ := (htodo x q hold).resolve_left hnot
      obtain rfl := Option.some.inj (hd.symm.trans hi)
      exact hopen ⟨.inl ⟨t', rfl⟩, _, _, rfl, rfl⟩
    · rintro ⟨⟨_, hst⟩ | hst, -⟩ <;> contradiction

/-- The walk is through with the requests of the module on top of its path. -/
theorem through (h : Tour.Kept s ⟨goal, .here, w⟩) (hf : w.frames = ⟨m, t, []⟩ :: rest)
    (hst : st'.top = [m]) (hsource : ∀ x ∈ w.stack, (s.source? x).isSome) :
    Tour.Kept s ⟨goal, st', { w with frames := rest }⟩ := by
  have htodo : ∀ x q, EvaluationWalk.ToDo w x q →
      EvaluationWalk.ToDo { w with frames := rest } x q := by
    rintro x q ⟨g, hg, rfl, hq⟩
    rw [hf] at hg
    rcases List.mem_cons.1 hg with rfl | hg
    · exact absurd hq List.not_mem_nil
    · exact ⟨g, hg, rfl, hq⟩
  have hnot : ∀ d, st' ≠ .back d := fun d hd ↦ by
    rw [hd] at hst
    exact nomatch hst
  refine h.stance ?_ ⟨rfl, rfl⟩ (fun x _ q hq ↦ .inl fun hold ↦ hq (htodo x q hold)) ?_ hsource
    fun d hd ↦ absurd hd (hnot d)
  · change st'.top ++ rest.map (·.module) = w.frames.map (·.module)
    rw [hst, hf]
    rfl
  · rintro x hx y ⟨q, hq, hnot, hi, hopen⟩
    refine .inl ⟨q, hq, fun hold ↦ hnot (htodo x q hold), hi, ?_⟩
    rintro ⟨⟨_, hst⟩ | hst, -⟩ <;> exact nomatch hst

/-- The walk is back from a module on its stack. -/
theorem leaveBack (h : Tour.Kept s ⟨goal, .back d, w⟩) (hf : w.frames = f :: rest)
    (hnodup : w.stack.Nodup) (hd : d ∈ w.stack) (hlow : s.low f.module ≤ s.low d) :
    Tour.Kept s ⟨goal, .here, w⟩ := by
  have hdone : ∀ x y, Tour.Done s ⟨goal, .here, w⟩ x y →
      Tour.Done s ⟨goal, .back d, w⟩ x y ∨ x = f.module ∧ y = d := by
    rintro x y ⟨q, hq, htodo, hi, -⟩
    by_cases hxy : Tour.Opens ⟨goal, .back d, w⟩ x y
    · exact .inr (opens_of_back hxy hf)
    · exact .inl ⟨q, hq, htodo, hi, hxy⟩
  have hpath : Tour.path ⟨goal, .back d, w⟩ = f.module :: rest.map (·.module) := by
    simp [Tour.path, Stance.top, hf]
  refine ⟨?_, h.sorted, h.bound, h.low, h.loaded, fun x hx y hxy hsome ↦ ?_, by simp⟩
  · have hlaid := h.laid
    rw [hpath] at hlaid
    rw [show Tour.path ⟨goal, .here, w⟩ = _ from hpath]
    refine hlaid.head hnodup fun x hx y hy hxy ↦ (hdone x y hxy).imp id ?_
    rintro ⟨rfl, rfl⟩
    exact ⟨rfl, hlow.trans (h.low _ hd)⟩
  · rcases hdone x y hxy with hxy | ⟨-, rfl⟩
    · exact h.leads x hx y hxy hsome
    · exact .inr hd

/-- The walk is through with a module that stays on its stack. -/
theorem leaveThrough (h : Tour.Kept s ⟨goal, .through d, w⟩) (hf : w.frames = f :: rest)
    (hlow : s.low f.module ≤ s.low d) : Tour.Kept s ⟨goal, .here, w⟩ := by
  have hdone : ∀ x y, Tour.Done s ⟨goal, .here, w⟩ x y →
      Tour.Done s ⟨goal, .through d, w⟩ x y := by
    rintro x y ⟨q, hq, htodo, hi, -⟩
    refine ⟨q, hq, htodo, hi, ?_⟩
    rintro ⟨⟨_, hst⟩ | hst, -⟩ <;> contradiction
  have hpath : Tour.path ⟨goal, .through d, w⟩ = d :: f.module :: rest.map (·.module) := by
    simp [Tour.path, Stance.top, hf]
  have hpath' : Tour.path ⟨goal, .here, w⟩ = f.module :: rest.map (·.module) := by
    simp [Tour.path, Stance.top, hf]
  refine ⟨?_, h.sorted, h.bound, h.low, h.loaded, fun x hx y hxy ↦ ?_, by simp⟩
  · have hlaid := h.laid
    rw [hpath] at hlaid
    rw [hpath']
    exact (hlaid.merge h.sorted h.low hlow).mono (fun x _ y _ ↦ hdone x y)
      (fun _ _ ↦ Nat.le_refl _) fun _ _ ↦ rfl
  · exact h.leads x hx y (hdone x y hxy)

/-- The walk enters a module. -/
theorem enter {r : SourceText} {t' : Traversal} (h : Tour.Kept s ⟨goal, .coming d t, w⟩)
    (hs : s.Dwells (EvaluationWalk.push s w d t').1)
    (hwalked : ∀ x ∈ w.stack, ∃ r, s.source? x = some r ∧ r.status.isWalked = true)
    (hd : s.source? d = some r) (hnot : d ∉ w.stack) :
    Tour.Kept (EvaluationWalk.push s w d t').1
      ⟨goal, .here, (EvaluationWalk.push s w d t').2⟩ := by
  have hold := h.dwells hs hwalked
  set s' := (EvaluationWalk.push s w d t').1
  set w' := (EvaluationWalk.push s w d t').2
  have hself : s'.source? d = some (r.entered t' w.index) := by
    rw [show s'.source? d = _ from Store.source?_modifySource s d _ d, if_pos rfl, hd]
    rfl
  have hdepth : s'.depth d = w.index := by
    rw [Store.depth, hself]
    rfl
  have hlow : s'.low d = w.index := by
    rw [Store.low, hself]
    rfl
  have hrequests : (s'.entries d).requests = (s.entries d).requests := by rw [hs.entries]
  have htodo : ∀ q ∈ (s'.entries d).requests, w'.ToDo d q := fun q hq ↦
    ⟨⟨d, t', (s.entries d).requests⟩, List.mem_cons_self, rfl, hrequests ▸ hq⟩
  have htodo' : ∀ x q, w.ToDo x q → w'.ToDo x q := fun x q ⟨f, hf, hx, hq⟩ ↦
    ⟨f, List.mem_cons_of_mem _ hf, hx, hq⟩
  -- all that the walk was done with, but for coming to the module
  have hdone : ∀ x y, Tour.Done s' ⟨goal, .here, w'⟩ x y →
      x ≠ d ∧ (Tour.Done s' ⟨goal, .coming d t, w⟩ x y ∨ y = d) := by
    rintro x y ⟨q, hq, hnot', hi, -⟩
    refine ⟨fun hx ↦ hnot' (hx ▸ htodo q (hx ▸ hq)), ?_⟩
    by_cases hxy : Tour.Opens ⟨goal, .coming d t, w⟩ x y
    · refine .inr ?_
      obtain ⟨⟨_, hst⟩ | hst, -⟩ := hxy
      · exact (Stance.coming.inj hst).1.symm
      · exact nomatch hst
    · exact .inl ⟨q, hq, fun hold' ↦ hnot' (htodo' x q hold'), hi, hxy⟩
  have hsplit : ∀ {P : ModuleId → Prop}, P d → (∀ x ∈ w.stack, P x) → ∀ x ∈ w'.stack, P x :=
    fun h0 h ↦ List.forall_mem_cons.2 ⟨h0, h⟩
  constructor
  · have hbelow : Laid s' (Tour.Done s' ⟨goal, .here, w'⟩) (w.frames.map (·.module)) w.stack :=
      hold.laid.mono (fun x _ y hy hxy ↦ (hdone x y hxy).2.resolve_right fun hyd ↦ hnot (hyd ▸ hy))
        (fun _ _ ↦ Nat.le_refl _) fun _ _ ↦ rfl
    have hself : ∀ x ∈ [] ++ [d], ∀ y ∈ [] ++ d :: w.stack, Tour.Done s' ⟨goal, .here, w'⟩ x y →
        s'.low d ≤ s'.depth y := fun x hx y _ hxy ↦
      absurd (List.mem_singleton.1 hx) (hdone x y hxy).1
    exact .cons hbelow hself
  · refine List.pairwise_cons.2 ⟨fun y hy ↦ ?_, hold.sorted⟩
    rw [hdepth]
    exact hold.bound y hy
  · refine hsplit ?_ fun x hx ↦ (hold.bound x hx).trans (Nat.lt_succ_self _)
    rw [hdepth]
    exact Nat.lt_succ_self _
  · refine hsplit ?_ hold.low
    rw [hdepth, hlow]
  · refine hsplit (fun q hq hno ↦ absurd (htodo q hq) hno) fun x hx q hq hno ↦ ?_
    exact hold.loaded x hx q hq fun hold' ↦ hno (htodo' x q hold')
  · refine hsplit (fun y hxy _ ↦ absurd rfl (hdone d y hxy).1) fun x hx y hxy hsome ↦ ?_
    rcases (hdone x y hxy).2 with hxy | rfl
    · exact (hold.leads x hx y hxy hsome).imp id (List.mem_cons_of_mem _)
    · exact .inr List.mem_cons_self
  · exact nofun

end Tour.Kept

/-! ### Components that are complete -/

section

variable {s : Store} {goal : EvaluationGoal} {w : EvaluationWalk} {above below : List ModuleId}
  {m : ModuleId}

/-- What is known when a walk takes a component off its stack. -/
structure Closes (s : Store) (goal : EvaluationGoal) (w : EvaluationWalk)
    (above below : List ModuleId) (m : ModuleId) : Prop where
  complete : s.Complete
  kept : Tour.Kept s ⟨goal, .through m, w⟩
  nodup : w.stack.Nodup
  evaluating : ∀ x ∈ w.stack, ∃ r, s.source? x = some r ∧ r.status = .evaluating
  stack : w.stack = above ++ m :: below
  root : s.isComponentRoot m = true

namespace Closes

theorem nodup_popped (h : Closes s goal w above below m) : (above ++ [m]).Nodup := by
  refine List.Sublist.nodup ?_ (h.stack ▸ h.nodup)
  exact (List.append_sublist_append_left above).2 (List.singleton_sublist.2 List.mem_cons_self)

theorem source? (h : Closes s goal w above below m) (x : ModuleId) :
    (s.completeMembers m (above ++ [m])).source? x =
      if x ∈ above ++ [m] then (s.source? x).map (SourceText.complete m) else s.source? x :=
  s.source?_completeMembers h.nodup_popped m x

theorem mem_stack (h : Closes s goal w above below m) {x : ModuleId} (hx : x ∈ above ++ [m]) :
    x ∈ w.stack := by
  rw [h.stack]
  simp only [List.mem_append, List.mem_cons, List.not_mem_nil, or_false] at hx ⊢
  exact hx.imp id .inl

/-- Nothing on the stack is complete. -/
theorem root_eq_none (h : Closes s goal w above below m) {x : ModuleId} (hx : x ∈ w.stack) :
    s.root? x = none := by
  obtain ⟨r, hr, hs⟩ := h.evaluating x hx
  rw [Store.root?_eq hr]
  by_contra hne
  have := h.complete.settling x r hr (Option.isSome_iff_ne_none.2 hne)
  rw [hs] at this
  exact nomatch this

theorem root?_eq (h : Closes s goal w above below m) (x : ModuleId) :
    (s.completeMembers m (above ++ [m])).root? x =
      if x ∈ above ++ [m] then some m else s.root? x := by
  rw [Store.root?, h.source? x]
  split
  · next hx =>
    obtain ⟨r, hr, -⟩ := h.evaluating x (h.mem_stack hx)
    rw [hr]
    rfl
  · rfl

theorem entries_eq (h : Closes s goal w above below m) (x : ModuleId) :
    (s.completeMembers m (above ++ [m])).entries x = s.entries x := by
  rw [Store.entries, Store.entries, h.source? x]
  split
  · cases s.source? x <;> rfl
  · rfl

theorem imported?_eq (h : Closes s goal w above below m) (x : ModuleId) (q : Request) :
    (s.completeMembers m (above ++ [m])).imported? x q = s.imported? x q := by
  rw [Store.imported?, Store.imported?, h.source? x]
  split
  · cases s.source? x <;> rfl
  · rfl

/-- The stack is laid out along the path below, and whatever the component leads back to is not
below its root. -/
theorem laid (h : Closes s goal w above below m) :
    Laid s (Tour.Done s ⟨goal, .through m, w⟩) (w.frames.map (·.module)) below ∧
      ∀ x ∈ above ++ [m], ∀ y ∈ w.stack, Tour.Done s ⟨goal, .through m, w⟩ x y →
        s.low m ≤ s.depth y := by
  obtain ⟨seg, stack', hstack, hpath, hm⟩ := h.kept.laid.of_cons
  have heq : above ++ m :: below = seg ++ m :: stack' := h.stack.symm.trans hstack
  -- the module is on the stack once
  have hnodup := h.nodup
  rw [h.stack] at hnodup
  have habove : m ∉ above := fun hmem ↦
    (List.nodup_append.1 hnodup).2.2 m hmem m List.mem_cons_self rfl
  have hbelow : m ∉ below := (List.nodup_cons.1 (List.nodup_append.1 hnodup).2.1).1
  obtain ⟨rfl, -, rfl⟩ := (List.append_cons_inj_of_notMem habove hbelow).1 heq
  rw [h.stack]
  exact ⟨hpath, hm⟩

/-- Whatever the modules of the component request is complete, or one of them. -/
theorem leads (h : Closes s goal w above below m) {x : ModuleId} (hx : x ∈ above ++ [m])
    {q : Request} (hq : q ∈ (s.entries x).requests) : ∃ y, s.imported? x q = some y ∧
      ((s.source? y).isSome → (s.root? y).isSome ∨ y ∈ above ++ [m]) := by
  have hmem := h.mem_stack hx
  obtain ⟨hlaid, hback⟩ := h.laid
  have htodo : ¬w.ToDo x q := by
    rintro ⟨f, hf, rfl, -⟩
    have hbelow : f.module ∈ below := hlaid.subset (List.mem_map_of_mem hf)
    have hnodup := h.nodup
    rw [h.stack, List.append_cons] at hnodup
    exact (List.nodup_append.1 hnodup).2.2 _ hx _ hbelow rfl
  obtain ⟨y, hy⟩ := Option.isSome_iff_exists.1 (h.kept.loaded x hmem q hq htodo)
  have hdone : Tour.Done s ⟨goal, .through m, w⟩ x y := by
    refine ⟨q, hq, htodo, hy, ?_⟩
    rintro ⟨⟨_, hst⟩ | hst, -⟩ <;> exact nomatch hst
  refine ⟨y, hy, fun hsome ↦ (h.kept.leads x hmem y hdone hsome).imp id fun hys ↦ ?_⟩
  -- it is not below the root of the component
  have hys : y ∈ w.stack := hys
  have hlow : s.low m = s.depth m := by
    have hroot := h.root
    obtain ⟨r, hr, -⟩ := h.evaluating m (h.mem_stack (List.mem_append_right _ List.mem_cons_self))
    rw [Store.isComponentRoot, hr] at hroot
    rw [Store.low, Store.depth, hr]
    simpa using hroot
  have hle := hback x hx y hys hdone
  rw [h.stack, List.append_cons] at hys
  refine (List.mem_append.1 hys).resolve_right fun hbelow ↦ ?_
  have hsorted := h.kept.sorted
  rw [show (Tour.walk ⟨goal, .through m, w⟩).stack = _ from h.stack] at hsorted
  have hlt := (List.pairwise_cons.1 (List.pairwise_append.1 hsorted).2.1).1 y hbelow
  omega

/-- Whatever the component leads to is complete, or part of it. -/
theorem reaches (h : Closes s goal w above below m) {x y : ModuleId} (hx : x ∈ above ++ [m])
    (hxy : s.Reaches x y) (hy : (s.source? y).isSome) : (s.root? y).isSome ∨ y ∈ above ++ [m] := by
  induction hxy with
  | refl => exact .inr hx
  | tail _ hstep ih =>
    rcases ih (Store.source_of_requests hstep) with hroot | hmem
    · exact .inl (h.complete.root_of_reaches hroot (.single hstep) hy)
    · obtain ⟨q, hq, hi⟩ := hstep
      obtain ⟨z, hz, hlead⟩ := h.leads hmem hq
      obtain rfl := Option.some.inj (hi.symm.trans hz)
      exact hlead hy

theorem source_of_source (h : Closes s goal w above below m) {y : ModuleId}
    (hy : ((s.completeMembers m (above ++ [m])).source? y).isSome) : (s.source? y).isSome := by
  rw [h.source? y] at hy
  split at hy
  · simpa using hy
  · exact hy

/-- What is complete stays so, together with the component. -/
theorem completes (h : Closes s goal w above below m) :
    (s.completeMembers m (above ++ [m])).Complete := by
  have hnew : ∀ {y}, (s.root? y).isSome ∨ y ∈ above ++ [m] →
      ((s.completeMembers m (above ++ [m])).root? y).isSome := fun {y} hy ↦ by
    rw [h.root?_eq]
    split
    · rfl
    · next hnot => exact hy.resolve_right hnot
  constructor
  · intro x r' hr' hroot
    rw [h.source? x] at hr'
    split at hr'
    · next hx =>
      obtain ⟨r, hr, hs⟩ := h.evaluating x (h.mem_stack hx)
      rw [hr] at hr'
      obtain rfl := Option.some.inj hr'
      exact SourceText.isSettling_complete m hs
    · exact h.complete.settling x r' hr' hroot
  · intro x hx q hq
    rw [h.entries_eq] at hq
    rw [h.root?_eq] at hx
    simp only [h.imported?_eq]
    split at hx
    · next hmem =>
      obtain ⟨y, hy, hroot⟩ := h.leads hmem hq
      exact ⟨y, hy, fun hsome ↦ hnew (hroot (h.source_of_source hsome))⟩
    · obtain ⟨y, hy, hroot⟩ := h.complete.requests x hx q hq
      exact ⟨y, hy, fun hsome ↦ hnew (.inl (hroot (h.source_of_source hsome)))⟩

/-- The component is represented by its root. -/
theorem shares (h : Closes s goal w above below m) (hshared : s.Shared) :
    (s.completeMembers m (above ++ [m])).Shared := by
  have hself : m ∈ above ++ [m] := List.mem_append_right _ List.mem_cons_self
  have hold : ∀ {x}, (s.root? x).isSome → x ∉ above ++ [m] := fun hx hmem ↦ by
    rw [h.root_eq_none (h.mem_stack hmem)] at hx
    contradiction
  have hreach : ∀ {x y}, (s.completeMembers m (above ++ [m])).Reaches x y → s.Reaches x y :=
    fun hxy ↦ Relation.ReflTransGen.mono (fun a b ⟨q, hq, hi⟩ ↦
      ⟨q, h.entries_eq a ▸ hq, (h.imported?_eq a q).symm.trans hi⟩) _ _ hxy
  constructor
  · intro x c hc
    rw [h.root?_eq] at hc ⊢
    split at hc
    · obtain rfl := Option.some.inj hc
      rw [if_pos hself]
    · have hown := hshared.own x c hc
      rw [if_neg (hold (Option.isSome_of_mem hown)), hown]
  · intro x y hx hxy hyx
    rcases Relation.ReflTransGen.cases_head hyx with rfl | ⟨z, hyz, -⟩
    · rfl
    have hy : (s.source? y).isSome := h.source_of_source (Store.source_of_requests hyz)
    replace hxy := hreach hxy
    replace hyx := hreach hyx
    rw [h.root?_eq] at hx
    split at hx
    · -- the modules that the component leads to are complete already, and then do not lead back, or
      -- part of it
      next hmem =>
      have hy' := (h.reaches hmem hxy hy).resolve_left fun hroot ↦ ?_
      · rw [h.root?_eq, h.root?_eq, if_pos hmem, if_pos hy']
      · refine hold (h.complete.root_of_reaches hroot hyx ?_) hmem
        obtain ⟨r, hr, -⟩ := h.evaluating x (h.mem_stack hmem)
        exact Option.isSome_of_mem hr
    · have hroot := h.complete.root_of_reaches hx hxy hy
      rw [h.root?_eq, h.root?_eq, if_neg (hold hx), if_neg (hold hroot)]
      exact hshared.shared x y hx hxy hyx

/-- The walk goes on with what is left of its stack. -/
theorem popped (h : Closes s goal w above below m) :
    Tour.Kept (s.completeMembers m (above ++ [m])) ⟨goal, .back m, { w with stack := below }⟩ := by
  have hnodup := h.nodup
  rw [h.stack, List.append_cons] at hnodup
  have hstack : w.stack = (above ++ [m]) ++ below := by rw [h.stack, List.append_cons]
  have hnot : ∀ x ∈ below, x ∉ above ++ [m] := fun x hx hmem ↦
    (List.nodup_append.1 hnodup).2.2 x hmem x hx rfl
  have hsub : below ⊆ w.stack := fun x hx ↦ hstack ▸ List.mem_append_right _ hx
  have hsame : ∀ x ∈ below, (s.completeMembers m (above ++ [m])).source? x = s.source? x :=
    fun x hx ↦ by rw [h.source? x, if_neg (hnot x hx)]
  have hdepth : ∀ x ∈ below, (s.completeMembers m (above ++ [m])).depth x = s.depth x :=
    fun x hx ↦ by rw [Store.depth, Store.depth, hsame x hx]
  have hlow : ∀ x ∈ below, (s.completeMembers m (above ++ [m])).low x = s.low x :=
    fun x hx ↦ by rw [Store.low, Store.low, hsame x hx]
  have hdone : ∀ x y, Tour.Done (s.completeMembers m (above ++ [m]))
      ⟨goal, .back m, { w with stack := below }⟩ x y → Tour.Done s ⟨goal, .through m, w⟩ x y := by
    rintro x y ⟨q, hq, htodo, hi, -⟩
    refine ⟨q, h.entries_eq x ▸ hq, htodo, (h.imported?_eq x q).symm.trans hi, ?_⟩
    rintro ⟨⟨_, hst⟩ | hst, -⟩ <;> exact nomatch hst
  have hsorted := h.kept.sorted
  rw [show (Tour.walk ⟨goal, .through m, w⟩).stack = _ from hstack] at hsorted
  constructor
  · exact h.laid.1.mono (fun x _ y _ ↦ hdone x y) (fun x hx ↦ (hlow x hx).le) hdepth
  · refine (List.pairwise_append.1 hsorted).2.1.imp_of_mem fun {x y} hx hy hlt ↦ ?_
    rwa [hdepth x hx, hdepth y hy]
  · exact fun x hx ↦ (hdepth x hx).symm ▸ h.kept.bound x (hsub hx)
  · exact fun x hx ↦ by
      rw [hlow x hx, hdepth x hx]
      exact h.kept.low x (hsub hx)
  · intro x hx q hq htodo
    rw [h.entries_eq] at hq
    rw [h.imported?_eq]
    exact h.kept.loaded x (hsub hx) q hq htodo
  · intro x hx y hxy hsome
    rw [h.root?_eq]
    split
    · exact .inl rfl
    · next hy =>
      have hsource : (s.source? y).isSome := by
        rwa [h.source? y, if_neg hy] at hsome
      refine (h.kept.leads x (hsub hx) y (hdone x y hxy) hsource).imp id fun hmem ↦ ?_
      exact (List.mem_append.1 (hstack ▸ hmem)).resolve_left hy
  · intro d hd
    obtain rfl := Stance.back.inj hd
    refine .inl ?_
    rw [h.root?_eq, if_pos (List.mem_append_right _ List.mem_cons_self)]
    rfl

end Closes

end

end EcmaModules
