import EcmaModules.Proofs.Backing
import EcmaModules.Proofs.Calls
import EcmaModules.Proofs.Enclosure

/-!
# Counts are exact

When all requests are for evaluation, the count of a module that waits is the number of pending
modules that know it, between any two calls and whatever fails. Only a module whose component has
failed is told nothing any more, and its count stays as it is.

Nor is there a circle of modules that wait for each other. A module comes to wait for others only
while a walk is at it, and by then nobody waits for it: nobody comes to wait for a module before that
is pending, and it is pending only when the walk is through with its requests.
-/

namespace EcmaModules

open EvaluationWalk (await detach)

/-! ## Who waits for whom -/

/-- A module waits for another one: it is known to that one, which is pending. -/
def Store.WaitsFor (s : Store) (m d : ModuleId) : Prop :=
  ∃ q, s.source? d = some q ∧ q.asyncState = .pending ∧ m ∈ q.asyncParents

/-- The modules that a module waits for. -/
def Store.awaited (s : Store) (m : ModuleId) : List ModuleId :=
  ((List.range s.modules.size).map ModuleId.mk).filter fun d ↦
    (s.source? d).any fun q ↦ q.asyncState = .pending && q.asyncParents.contains m

theorem Store.mem_awaited {s : Store} {m d : ModuleId} : d ∈ s.awaited m ↔ s.WaitsFor m d := by
  have hsize : ∀ q, s.source? d = some q → d.index < s.modules.size := fun q hq ↦
    index_lt_of_source (Option.isSome_of_mem hq)
  obtain ⟨i⟩ := d
  simp only [awaited, WaitsFor, List.mem_filter, List.mem_map, List.mem_range, Option.any_eq_true,
    Bool.and_eq_true, decide_eq_true_eq, List.contains_iff_mem]
  constructor
  · rintro ⟨-, q, hq, hpending, hmem⟩
    exact ⟨q, hq, hpending, hmem⟩
  · rintro ⟨q, hq, hpending, hmem⟩
    exact ⟨⟨i, hsize q hq, rfl⟩, q, hq, hpending, hmem⟩

theorem Store.nodup_awaited (s : Store) (m : ModuleId) : (s.awaited m).Nodup :=
  (List.nodup_range.map fun _ _ h ↦ ModuleId.mk.inj h).filter _

/-! ## Circles -/

/-- More starts at a place that nothing leads to. No circle comes of that. -/
theorem acyclic_of_unreached {α : Type} {R R' : α → α → Prop} {m : α}
    (hR : ∀ x y, R' x y → R x y ∨ x = m) (hm : ∀ x, ¬R' x m)
    (h : ∀ x, ¬Relation.TransGen R x x) (x : α) : ¬Relation.TransGen R' x x := by
  have hold : ∀ {x y}, Relation.TransGen R' x y → x ≠ m → Relation.TransGen R x y := by
    intro x y hxy
    induction hxy using Relation.TransGen.head_induction_on with
    | single hxy => exact fun hx ↦ .single ((hR _ _ hxy).resolve_right hx)
    | head hxz _ ih =>
      refine fun hx ↦ .head ((hR _ _ hxz).resolve_right hx) (ih ?_)
      rintro rfl
      exact hm _ hxz
  intro hxx
  have hx : x ≠ m := by
    rintro rfl
    obtain ⟨y, -, hy⟩ := Relation.TransGen.tail'_iff.1 hxx
    exact hm y hy
  exact h x (hold hxx hx)

/-- A module that is being executed is known to somebody before it is clear that it has to wait. -/
def SourceText.KnownEarly (r : SourceText) : Prop :=
  r.status = .evaluating ∧ r.asyncState ≠ .pending ∧ r.asyncParents ≠ []

/-- Nobody comes to wait for the module. -/
structure SourceText.Loosens (r r' : SourceText) : Prop where
  waits : r'.asyncState = .pending → ∀ x ∈ r'.asyncParents,
    r.asyncState = .pending ∧ x ∈ r.asyncParents
  early : r'.KnownEarly → r.KnownEarly

namespace SourceText.Loosens

variable {r r' : SourceText}

theorem of_same (hstatus : r'.status = .evaluating → r.status = .evaluating)
    (hstate : r'.asyncState = r.asyncState) (hparents : r'.asyncParents = r.asyncParents) :
    r.Loosens r' := by
  refine ⟨fun h x hx ↦ ⟨hstate ▸ h, hparents ▸ hx⟩, ?_⟩
  rintro ⟨hs, hp, hne⟩
  exact ⟨hstatus hs, hstate ▸ hp, hparents ▸ hne⟩

theorem refl (r : SourceText) : r.Loosens r := of_same id rfl rfl

/-- The module is over. -/
theorem finished (hstatus : r'.status = .evaluated) (hstate : r'.asyncState ≠ .pending) :
    r.Loosens r' :=
  ⟨fun h ↦ absurd h hstate, fun h ↦ nomatch hstatus.symm.trans h.1⟩

/-- The component of the module is complete. -/
theorem complete (r : SourceText) (root : ModuleId) : r.Loosens (r.complete root) := by
  refine of_same (fun hst ↦ ?_) rfl rfl
  change EvaluationWalk.completeStatus r = .evaluating at hst
  unfold EvaluationWalk.completeStatus at hst
  dsimp only at hst
  split at hst
  · split at hst <;> contradiction
  · split at hst <;> contradiction
  · exact hst

/-- The module is left on the stack of a walk that fails. -/
theorem fail (r : SourceText) (e : ErrorId) : r.Loosens (r.fail e) := by
  refine finished rfl ?_
  change (if r.asyncState = .pending then AsyncState.settled else r.asyncState) ≠ .pending
  split
  · exact nofun
  · next hnot => exact hnot

/-- Nobody knows the module. -/
theorem unknown (hparents : r'.asyncParents = []) : r.Loosens r' :=
  ⟨fun _ _ hx ↦ absurd (hparents ▸ hx) List.not_mem_nil, fun h ↦ absurd hparents h.2.2⟩

end SourceText.Loosens

/-- Nobody is known early, and no circle of modules wait for each other. -/
structure Store.Ordered (s : Store) : Prop where
  early : ∀ x r, s.source? x = some r → ¬r.KnownEarly
  acyclic : ∀ x, ¬Relation.TransGen s.WaitsFor x x

namespace Store.Ordered

variable {s s' : Store} {T : List Tour} {F X G : List ModuleId} {H : List Event} {m d : ModuleId}

theorem loosens (h : s.Ordered) (hs : s.Each SourceText.Loosens s') : s'.Ordered := by
  refine ⟨fun x r' hr' hearly ↦ ?_, fun x hx ↦ h.acyclic x (Relation.TransGen.mono ?_ _ _ hx)⟩
  · obtain ⟨r, hr, hloosens⟩ := hs.before hr'
    exact h.early x r hr (hloosens.early hearly)
  · rintro m d ⟨q', hq', hpending, hmem⟩
    obtain ⟨q, hq, hloosens⟩ := hs.before hq'
    obtain ⟨hpending', hmem'⟩ := hloosens.waits hpending m hmem
    exact ⟨q, hq, hpending', hmem'⟩

theorem modifySource (h : s.Ordered) {f : SourceText → SourceText}
    (hf : ∀ r, s.source? m = some r → r.Loosens (f r)) : (s.modifySource m f).Ordered :=
  h.loosens (Each.modifySource .refl s m hf)

theorem of_modules (h : s.Ordered) (hm : s'.modules = s.modules) : s'.Ordered :=
  h.loosens (Each.of_modules .refl hm)

theorem of_outline (h : s.Ordered) (ho : s'.outline = s.outline) : s'.Ordered := by
  refine h.loosens ((Each.of_outline ho).mono fun r r' hr ↦ .of_same (fun hs ↦ ?_)
    (congrArg (·.asyncState) hr :) (congrArg (·.asyncParents) hr :))
  have hstatus : r'.status.outline = r.status.outline := congrArg (·.status) hr
  rwa [← Status.outline_eq_evaluating, ← hstatus, Status.outline_eq_evaluating]

/-- The components of modules are complete, or they are left on the stack of a walk. -/
theorem foldl_modifySource (h : s.Ordered) {f : SourceText → SourceText}
    (hf : ∀ r : SourceText, r.Loosens (f r)) (ms : List ModuleId) :
    (ms.foldl (fun s m ↦ s.modifySource m f) s).Ordered := by
  induction ms generalizing s with
  | nil => exact h
  | cons m ms ih => exact ih (h.modifySource fun r _ ↦ hf r)

/-- Modules fail, and those that wait for them. -/
theorem fails {e : ErrorId} (h : s.Ordered) (hs : Fails e s s') : s'.Ordered := by
  refine h.loosens fun x ↦ ?_
  rcases hs x with hx | ⟨r, hr, -, hx⟩
  · rw [hx]
    exact Each.refl .refl s x
  · rw [hr, hx]
    exact .some (.finished rfl nofun)

/-- A module has finished. -/
theorem finishModule (h : s.Ordered) (m : ModuleId) : (s.finishModule m).Ordered := by
  refine h.loosens fun x ↦ ?_
  rw [s.source?_finishModule m x]
  split
  · rcases s.source? x with _ | r
    · exact .none
    · exact .some (.finished rfl nofun)
  · exact Each.refl .refl s x

/-- A module that is being executed waits from now on. -/
theorem holdModule (h : s.Ordered) (hm : ∀ r, s.source? m = some r →
    r.asyncState = .pending ∨ r.status = .evaluating) : (s.holdModule m).Ordered := by
  refine h.modifySource fun r hr ↦ ?_
  by_cases hpending : r.asyncState = .pending
  · exact .of_same id hpending.symm rfl
  · have hst := (hm r hr).resolve_left hpending
    have hnone : r.asyncParents = [] := by
      by_contra hne
      exact h.early m r hr ⟨hst, hpending, hne⟩
    exact .unknown hnone

theorem startAsync (h : s.Ordered) (hm : ∀ r, s.source? m = some r →
    r.asyncState = .pending ∨ r.status = .evaluating) : (s.startAsync m).2.Ordered :=
  (h.holdModule hm).of_modules (modules_react _ _ _)

/-- The module that a walk is at comes to wait for another one. -/
theorem await (h : s.Ordered) (hm : ∀ r, s.source? m = some r →
    r.status = .evaluating ∧ r.asyncState ≠ .pending) (d : ModuleId) :
    (EvaluationWalk.await s m d).Ordered := by
  rcases EvaluationWalk.await_cases s m d with heq | ⟨r, q, hr, hq, hpending, -, heq⟩
  · rwa [heq]
  obtain ⟨hst, hnot⟩ := hm r hr
  have hmd : m ≠ d := by
    rintro rfl
    obtain rfl := Option.some.inj (hr.symm.trans hq)
    exact hnot hpending
  rw [heq]
  set s₁ := s.modifySource m fun r ↦ { r with pendingAsync := r.pendingAsync + 1 } with hs₁
  have h₁ : s₁.Ordered := h.modifySource fun r _ ↦ .of_same id rfl rfl
  have hq₁ : s₁.source? d = some q := by
    rw [hs₁, source?_modifySource, if_neg (Ne.symm hmd), hq]
  have hm₁ : ∀ p, s₁.source? m = some p → p.asyncState ≠ .pending := fun p hp ↦ by
    rw [hs₁, source?_modifySource, if_pos rfl, hr] at hp
    obtain rfl := Option.some.inj hp
    exact hnot
  have hsource := s₁.source?_modifySource d fun q ↦ { q with asyncParents := q.asyncParents ++ [m] }
  refine ⟨fun x p hp hearly ↦ ?_, acyclic_of_unreached (m := m) (fun x y hxy ↦ ?_) (fun x hx ↦ ?_)
    h₁.acyclic⟩
  · rw [hsource] at hp
    split at hp
    · next hx =>
      subst hx
      rw [hq₁] at hp
      obtain rfl := Option.some.inj hp
      exact hearly.2.1 hpending
    · exact h₁.early x p hp hearly
  · obtain ⟨p, hp, hpending', hmem⟩ := hxy
    rw [hsource] at hp
    split at hp
    · next hy =>
      subst hy
      rw [hq₁] at hp
      obtain rfl := Option.some.inj hp
      exact (List.mem_append.1 hmem).imp (fun hmem ↦ ⟨q, hq₁, hpending, hmem⟩) List.mem_singleton.1
    · exact .inl ⟨p, hp, hpending', hmem⟩
  · -- nobody waits for it, since it is not pending
    obtain ⟨p, hp, hpending', -⟩ := hx
    rw [hsource, if_neg hmd] at hp
    exact hm₁ p hp hpending'

/-- A walk is back at a module, which comes to wait for another one. -/
theorem back {τ : Tour} {f : EvaluationFrame} (h : s.Ordered) (hs : Sound s.outline T F X G H)
    (hτ : τ ∈ T) (hf : f ∈ τ.walk.frames) (ht : f.traversal = .executing) (d : ModuleId) :
    (EvaluationWalk.await s f.module d).Ordered := by
  refine h.await (fun r hr ↦ ?_) d
  obtain ⟨hst, hnot, -⟩ := (hs.lawful _ _ (outline_eq_some hr)).framed _ ⟨τ, hτ, f, hf, rfl, rfl⟩
  rw [ht] at hst
  exact ⟨by simpa [Traversal.status] using hst, hnot⟩

end Store.Ordered

/-- Every move keeps it that no circle of modules wait for each other. -/
theorem Move.ordered {mode : Mode} {S S' : Scene} (hmove : Move mode S S') (hv : Valid S)
    (he : S.Eager) (h : S.store.Ordered) : S'.store.Ordered := by
  have hs := hv.sound
  have hframe : ∀ {τ : Tour} {f : EvaluationFrame}, τ ∈ S.tours → f ∈ τ.walk.frames →
      f.traversal = .executing := fun hτ hf ↦ ((he.tours _ hτ).frames _ hf).1
  cases hmove with
  | aside ha _ => exact h.of_outline ha.outline
  | note a r => exact h
  | @evaluate s m root H _ _ _ _ =>
    have hpromise : s.newPromise.2.Ordered := h.of_modules rfl
    exact hpromise.modifySource fun r _ ↦ .of_same id rfl rfl
  | @pass s goal w t T F X G J H d r hd ha _ =>
    change Store.Ordered (if _ then _ else _)
    unfold EvaluationWalk.detach
    split
    · split
      · exact h.modifySource fun r _ ↦ .of_same id rfl rfl
      · exact h
    · exact h
  | @enter s goal w t t' T F X G J H d r hd ha hnot _ =>
    refine h.modifySource fun q hq ↦ .unknown ?_
    obtain rfl := Option.some.inj (hd.symm.trans hq)
    have hsearched := he.status d r hd
    cases hst : r.status <;> simp [hst, Status.isSearched] at hsearched <;>
      simp [SourceText.entered, hst]
  | @leaveBack s goal st w f rest T F X G J H d r q hst hf hr hq hlead =>
    have hlowered : (s.lowerAncestor f.module q.dfsAncestorIndex).Ordered :=
      h.modifySource fun r _ ↦ .of_same id rfl rfl
    have hmem : f ∈ w.frames := hf ▸ List.mem_cons_self
    exact hlowered.back (hs.lowerAncestor _ _) List.mem_cons_self hmem
      (hframe List.mem_cons_self hmem) d
  | leaveSearched _ hf _ _ _ _ =>
    have hmem := hf ▸ List.mem_cons_self
    exact h.back hs List.mem_cons_self hmem (hframe List.mem_cons_self hmem) _
  | leaveOff hf _ _ _ _ _ =>
    have hmem := hf ▸ List.mem_cons_self
    exact h.back hs List.mem_cons_self hmem (hframe List.mem_cons_self hmem) _
  | @hold s goal w m rest T F X G J H r hf hr hpos =>
    obtain ⟨q, hq, hst, -⟩ := hs.lawful_top hf
    exact h.holdModule fun p hp ↦ .inr (Option.some.inj (hq.symm.trans hp) ▸ hst)
  | @runAsync s goal w m rest T F X G J H r hf hr h0 hw =>
    obtain ⟨q, hq, hst, -⟩ := hs.lawful_top hf
    exact h.startAsync fun p hp ↦ .inr (Option.some.inj (hq.symm.trans hp) ▸ hst)
  | search hf =>
    have ht := hframe List.mem_cons_self (hf ▸ List.mem_cons_self)
    contradiction
  | @pop s goal w m above below T F X G J H hstack hnot hroot =>
    exact h.foldl_modifySource (fun r ↦ .complete r m) _
  | done _ => exact h.of_outline (outline_finish _ _)
  | @fail s goal st w T F X G J H e _ _ _ =>
    exact Store.Ordered.of_outline (s := s.failModules w.stack e)
      (h.foldl_modifySource (.fail · e) _) (outline_fail _ _ _ _)
  | take _ => exact h.of_modules rfl
  | fulfill _ _ => exact h.finishModule _
  | @reject s m e H _ => exact h.fails (Store.fails_rejectModule s m e)
  | lessen _ _ _ _ => exact h.modifySource fun r _ ↦ .of_same id rfl rfl
  | release _ _ _ _ => exact h.modifySource fun r _ ↦ .of_same id rfl rfl
  | pastSearched hm _ hst =>
    have := he.status _ _ hm
    simp [hst, Status.isSearched] at this
  | @freeAsync s m r F H hm hst hw =>
    obtain ⟨hhead, -, U⟩ := hs.head hm hst
    refine h.startAsync fun q hq ↦ .inl ?_
    obtain rfl := Option.some.inj (hm.symm.trans hq)
    refine U.waiting (hhead.imp (fun h ↦ ?_) fun h ↦ ?_)
    all_goals simp [h.1]
  | freed => exact h.finishModule _
  | freedError _ => exact h.fails (Store.fails_rejectModule _ _ _)
  | _ => exact h

/-! ## The counts -/

/-- What is kept about counts in evaluation without searching. -/
structure Scene.Tallied (S : Scene) : Prop where
  enclosed : S.Enclosed
  backed : S.Backed
  ordered : S.store.Ordered

theorem Move.tallied {mode : Mode} {S S' : Scene} (hmove : Move mode S S') (hmode : ¬mode.forces)
    (h : S.Tallied) : S'.Tallied := by
  obtain ⟨henclosed, hbacked, hordered⟩ := h
  refine ⟨hmove.enclosed hmode henclosed, ?_, hmove.ordered henclosed.valid henclosed.eager hordered⟩
  refine hmove.backed hmode henclosed.valid henclosed.alone
    (.inr fun τ hτ ↦ henclosed.closed hτ) (fun x r hr hst ↦ ?_) hbacked
  have hsearched := henclosed.eager.status x r hr
  rw [hst] at hsearched
  exact nomatch hsearched

theorem Moves.tallied {mode : Mode} {S S' : Scene} (hmoves : Moves mode S S')
    (hmode : ¬mode.forces) (h : S.Tallied) : S'.Tallied := by
  induction hmoves with
  | refl => exact h
  | tail _ hmove ih => exact hmove.tallied hmode ih

/-! ## Runs -/

/-- Everything may happen, but that reading starts walks. -/
def Mode.unforced : Mode :=
  ⟨fun _ ↦ True, fun _ ↦ True, True, True, True, False, True, True, True⟩

/-- Such steps are made of moves of that kind. -/
theorem Machine.Unforced.grants {M M' : Machine} {H : List Event} (h : M.Unforced M')
    (hfit : M.Fit H) (heval : ∀ m, M.control = .run (.evaluate m) → M.frames = [])
    (hs : (M.scene H).Tallied) : M.Grants .unforced M.step := by
  have heager := hs.enclosed.eager
  refine ⟨⟨fun x _ hx ↦ ?_, .inl trivial, .inl trivial⟩, .inl trivial,
    keepsLinking hfit h heval hs.enclosed.alone.goals, .inl trivial, .inr h, .inl trivial,
    .inl trivial, .inl trivial, fun _ _ ↦ trivial⟩
  obtain ⟨r, hr, hst⟩ := Store.source?_of_status? hx
  have hsearched := heager.status x r hr
  rw [hst] at hsearched
  exact nomatch hsearched

/-- In the beginning nobody waits. -/
theorem Store.Fresh.tallied {s : Store} (h : s.Fresh) (he : s.EvaluationOnly) :
    ((State.idle s).scene []).Tallied := by
  have hnone : ∀ x r, s.source? x = some r → r.asyncParents = [] := fun x r hr ↦
    (h.source x r hr).2.2.2.2.2.1
  refine ⟨⟨h.valid, ⟨he, fun x r hr ↦ ?_, List.forall_mem_nil _⟩, .idle, fun x c hc ↦ ?_,
    List.forall_mem_nil _⟩,
    .of_fresh fun x r hr ↦ ?_, fun x r hr hearly ↦ hearly.2.2 (hnone x r hr), fun x hx ↦ ?_⟩
  · rcases (h.source x r hr).1 with hs | hs | hs <;> rw [hs] <;> rfl
  · have hc : s.root? x = some c := hc
    rcases hr : s.source? x with _ | r
    · simp [Store.root?, hr] at hc
    · rw [Store.root?_eq hr, (h.source x r hr).2.2.1] at hc
      contradiction
  · obtain ⟨q, hq, rfl⟩ := Store.source?_of_outline hr
    obtain ⟨-, -, -, hstate, -, hparents, hpending⟩ := h.source x q hq
    exact ⟨hstate, hparents, hpending⟩
  · obtain ⟨y, -, q, hq, -, hmem⟩ := Relation.TransGen.tail'_iff.1 hx
    rw [hnone x q hq] at hmem
    exact absurd hmem List.not_mem_nil

theorem Run.tallied {s₀ : Store} {st : State} {H : List Event} (hs : s₀.Fresh)
    (he : s₀.EvaluationOnly) (h : Run Machine.Unforced s₀ st H) : (st.scene H).Tallied := by
  have htallied : ∀ {st H}, Run (Machine.Grants .unforced) s₀ st H → (st.scene H).Tallied :=
    fun h ↦ (h.moves (fun _ _ ↦ id) hs.valid).1.tallied not_false (hs.tallied he)
  suffices hrun : Run (Machine.Grants .unforced) s₀ st H from htallied hrun
  induction h with
  | start => exact .start
  | call a _ ha ih => exact .call a ih ha
  | step _ he hP ih =>
    have hfit := (ih.moves (fun _ _ ↦ id) hs.valid).2 _ _ rfl
    exact .step ih he (hP.grants hfit he (htallied ih))
  | consult _ hq hs ih => exact .consult ih hq hs
  | answer as _ hq ih => exact .answer as ih hq
  | finish _ hr ih => exact .finish ih hr

/-- Between two calls, a module waits for those that owe it. -/
theorem Sound.owes_iff {s : Store} {H : List Event} {m d : ModuleId}
    (h : Sound s.outline [] [] [] [] H) : Owes s.outline ([] ++ []) d m ↔ s.WaitsFor m d := by
  constructor
  · rintro ⟨q, hq, hw, hmem, -⟩
    obtain ⟨r, hr, rfl⟩ := Store.source?_of_outline hq
    obtain ⟨hwalked, U⟩ := h.unwalked hq
    refine ⟨r, hr, U.waiting ?_, hmem⟩
    simp only [SourceText.outline_status, Status.isWaiting_outline, Status.isWalked_outline,
      Status.outline_eq_evaluatingAsync, Status.outline_eq_searchingAsync] at hw hwalked ⊢
    cases hst : r.status <;> simp [hst, Status.isWaiting, Status.isWalked] at hw hwalked ⊢
  · rintro ⟨q, hq, hpending, hmem⟩
    have ho := Store.outline_eq_some hq
    exact ⟨q.outline, ho, (h.lawful d _ ho).pending hpending, hmem, .inr List.not_mem_nil⟩

/-- Between two calls, the count of a module that waits is not less than the number of modules that it
waits for. -/
theorem Sound.length_awaited_le {s : Store} {H : List Event} {m : ModuleId} {r : SourceText}
    (h : Sound s.outline [] [] [] [] H) (hr : s.source? m = some r)
    (hst : r.status = .evaluatingAsync) : (s.awaited m).length ≤ r.pendingAsync := by
  obtain ⟨l, hl, hle⟩ := h.counted m _ (Store.outline_eq_some hr) (by simp [hst])
  have hsub : s.awaited m ⊆ l := fun d hd ↦ hl d (h.owes_iff.2 (Store.mem_awaited.1 hd))
  have hlength := ((s.nodup_awaited m).subperm hsub).length_le
  have hcount : r.outline.waitsFor = r.pendingAsync :=
    SourceText.waitsFor_of_waiting (by rw [SourceText.outline_status, hst]; rfl)
  rw [List.count_nil, hcount] at hle
  omega

/-- Nor is it greater, as long as the module that stands for it has not failed. -/
theorem Backed.le_length_awaited {s : Store} {H : List Event} {m : ModuleId} {r : SourceText}
    (h : Backed s.outline [] [] [] H) (hs : Sound s.outline [] [] [] [] H)
    (hr : s.source? m = some r) (hst : r.status = .evaluatingAsync)
    (hroot : s.evaluationError? (s.cycleRoot m) = none) :
    r.pendingAsync ≤ (s.awaited m).length := by
  obtain ⟨l, hnodup, hl, hle⟩ := h.owed m _ (Store.outline_eq_some hr) (Store.heeded_of_root hr hroot)
  have hsub : l ⊆ s.awaited m := fun d hd ↦ Store.mem_awaited.2 (hs.owes_iff.1 (hl d hd))
  have hlength := (hnodup.subperm hsub).length_le
  have hcount : r.outline.waitsFor = r.pendingAsync :=
    SourceText.waitsFor_of_waiting (by rw [SourceText.outline_status, hst]; rfl)
  rw [List.count_nil, hcount] at hle
  omega

/-- Between two calls, when all requests are for evaluation and reading starts no evaluation: nobody is
known to a module twice, the count of a module that waits is the number of modules that it waits for,
unless the module that stands for it has failed, its body has been called only if it awaits and waits
for nobody any more, and no circle of modules wait for each other. -/
theorem pending_counts_exact {s₀ s : Store} {H : List Event} (hs : s₀.Fresh)
    (he : s₀.EvaluationOnly) (h : Run Machine.Unforced s₀ (.idle s) H) :
    (∀ m r, s.source? m = some r → r.asyncParents.Nodup) ∧
      (∀ m r, s.source? m = some r → r.status = .evaluatingAsync →
        (s.evaluationError? (s.cycleRoot m) = none → r.pendingAsync = (s.awaited m).length) ∧
        ((∃ c, .began m c ∈ H) →
          r.entries.awaits = true ∧ r.pendingAsync = 0 ∧ s.awaited m = [])) ∧
      ∀ m, ¬Relation.TransGen s.WaitsFor m m := by
  obtain ⟨henclosed, hbacked, hordered⟩ := h.tallied hs he
  have hsound : Sound s.outline [] [] [] [] H := henclosed.valid.sound
  refine ⟨fun m r hr ↦ (hsound.lawful m _ (Store.outline_eq_some hr)).parents,
    fun m r hr hst ↦ ⟨fun hroot ↦ ?_, fun hbegun ↦ ?_⟩, hordered.acyclic⟩
  · exact Nat.le_antisymm (Backed.le_length_awaited hbacked hsound hr hst hroot)
      (hsound.length_awaited_le hr hst)
  · obtain ⟨-, U⟩ := hsound.unwalked (Store.outline_eq_some hr)
    have hbegun := U.begun hbegun
    simp only [SourceText.outline_status, hst] at hbegun
    rcases hbegun with hover | ⟨hawaits, -, hzero, -⟩ | ⟨-, -, hlone⟩
    · exact nomatch hover
    · have hzero : r.pendingAsync = 0 := hzero
      have hle := hsound.length_awaited_le hr hst
      exact ⟨hawaits, hzero, List.eq_nil_of_length_eq_zero (by omega)⟩
    · exact absurd hlone List.not_mem_nil

/-- Two modules that import each other, a module that awaits, which both of them import, and another
one that awaits, which imports the first of them. -/
def sharedGraph : Store where
  modules := #[.scripted false [("member", .evaluation, 1), ("tla", .evaluation, 2)] [],
    .scripted false [("root", .evaluation, 0), ("tla", .evaluation, 2)] [],
    .scripted true [] [],
    .scripted true [("root", .evaluation, 0)] []]

/-- The graph when two of them have been evaluated, and the module that awaits is suspended. -/
def sharedWaiting : Store × List Event :=
  (sharedGraph.play Machine.checkUnforced 100 [.evaluate ⟨0⟩, .evaluate ⟨3⟩] []).get
    (by decide +kernel)

theorem pending_counts_exact_sharedGraph :
    sharedGraph.Fresh ∧ sharedGraph.EvaluationOnly ∧
      Run Machine.Unforced sharedGraph (.idle sharedWaiting.1) sharedWaiting.2 ∧
      sharedWaiting.1.awaited ⟨0⟩ = [⟨1⟩, ⟨2⟩] ∧ sharedWaiting.1.awaited ⟨2⟩ = [] ∧
      (∀ m r, sharedWaiting.1.source? m = some r → r.asyncParents.Nodup) ∧
      (∀ m r, sharedWaiting.1.source? m = some r → r.status = .evaluatingAsync →
        (sharedWaiting.1.evaluationError? (sharedWaiting.1.cycleRoot m) = none →
          r.pendingAsync = (sharedWaiting.1.awaited m).length) ∧
        ((∃ c, .began m c ∈ sharedWaiting.2) →
          r.entries.awaits = true ∧ r.pendingAsync = 0 ∧ sharedWaiting.1.awaited m = [])) ∧
      ∀ m, ¬Relation.TransGen sharedWaiting.1.WaitsFor m m := by
  have hfresh : sharedGraph.Fresh := Store.fresh_of_scripted
    (l := [(false, [("member", .evaluation, 1), ("tla", .evaluation, 2)], []),
      (false, [("root", .evaluation, 0), ("tla", .evaluation, 2)], []), (true, [], []),
      (true, [("root", .evaluation, 0)], [])]) rfl rfl rfl
  have honly : sharedGraph.EvaluationOnly := Store.evaluationOnly_of_all (by decide +kernel)
  have hrun : Run Machine.Unforced sharedGraph (.idle sharedWaiting.1) sharedWaiting.2 :=
    Run.ofPlay Machine.checkUnforced sharedGraph 100 _ (fun _ _ ↦ Machine.unforced_of_check) _
  exact ⟨hfresh, honly, hrun, by decide +kernel, by decide +kernel,
    pending_counts_exact hfresh honly hrun⟩

end EcmaModules
