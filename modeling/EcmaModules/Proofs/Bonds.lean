import EcmaModules.Proofs.Readiness

/-!
# Those who wait

A module that is not over knows the modules that wait for it. As long as it knows one, that one is
not over either, and has not begun, unless it has failed; and when the module fails, so do they.

A module that was set free is the delicate case. It has told the modules that wait for it that it is
done with, but is still to be executed, and may fail then. So those that it has set free must come
after it, and that they were set free must keep walks away from them.
-/

namespace EcmaModules

/-- Those who wait for modules that are not over. -/
structure Bonds (s : Store) (F X G : List ModuleId) (H : List Event) : Prop where
  stands : ∀ z q, s.source? z = some q → q.status.isWaiting = true → ∀ y ∈ q.asyncParents,
    ∃ p, s.source? y = some p ∧ (p.hasFailed ∨ p.status.isWaiting = true ∧ y ∉ begun H)
  /-- A module that was set free has told those who wait for it. -/
  told : ∀ z ∈ X ++ F, ∀ q, s.source? z = some q → q.status.isWaiting = true →
    q.entries.awaits = false → ∀ y ∈ q.asyncParents, ∀ p, s.source? y = some p →
      p.hasFailed ∨ 0 < p.pendingAsync ∨ y ∈ G ∨ [z, y].Sublist (X ++ F)
  idle : ∀ y ∈ F, ∀ p, s.source? y = some p → p.status.isWaiting = true → p.pendingAsync = 0
  shared : ∀ d q, s.source? d = some q → q.hasFailed → ∀ y ∈ q.asyncParents,
    ∃ p, s.source? y = some p ∧ p.hasFailed

theorem Status.ne_evaluated_of_isWaiting {s : Status} (h : s.isWaiting = true) : s ≠ .evaluated := by
  rintro rfl
  exact nomatch h

namespace Store

theorem source?_finishModule (s : Store) (m x : ModuleId) : (s.finishModule m).source? x =
    if x = m then (s.source? x).map fun r ↦ { r with asyncState := .settled, status := .evaluated }
    else s.source? x := by
  unfold finishModule
  rw [source?_congr (modules_resolveCapability _ _), setStatus, settleAsync,
    modifySource_modifySource, source?_modifySource]

theorem source?_completeMembers (s : Store) {ms : List ModuleId} (h : ms.Nodup)
    (root x : ModuleId) : (s.completeMembers root ms).source? x =
      if x ∈ ms then (s.source? x).map (SourceText.complete root) else s.source? x :=
  source?_foldl_modifySource (SourceText.complete root) h s x

theorem source?_finishSearched (s : Store) (m x : ModuleId) : (s.finishSearched m).source? x =
    if x = m then (s.source? x).map fun r ↦
      { r with status := .asyncSubgraphsEvaluated, asyncState := .settled }
    else s.source? x := by
  unfold finishSearched
  rw [source?_congr (modules_resolveCapability _ _), setStatus, settleAsync,
    modifySource_modifySource, source?_modifySource]

end Store

theorem EvaluationGoal.source?_fail (s : Store) {stack : List ModuleId} (h : stack.Nodup)
    (e : ErrorId) (goal : EvaluationGoal) (x : ModuleId) : (goal.fail s stack e).1.source? x =
      if x ∈ stack then (s.source? x).map (SourceText.fail e) else s.source? x := by
  have hfail : (s.failModules stack e).source? x =
      if x ∈ stack then (s.source? x).map (SourceText.fail e) else s.source? x :=
    Store.source?_foldl_modifySource (SourceText.fail e) h s x
  cases goal with
  | promise root p => exact (Store.source?_congr (Store.modules_settle _ _ _) x).trans hfail
  | force m => exact hfail

theorem Lawful.over_or_waiting {p : Spot} {r : SourceText} (L : Lawful p r) (hb : p.begun) :
    r.status = .evaluated ∨ r.status.isWaiting = true := by
  rcases L.begun hb with hs | ⟨-, -, hs | hs, -⟩ | ⟨-, hs, -⟩ | ⟨-, hs, -⟩
  · exact .inl hs
  all_goals exact .inr (hs ▸ rfl)

/-! ## The same fate -/

/-- What became of the module is the same. -/
structure SourceText.Fated (r r' : SourceText) : Prop where
  entries : r'.entries = r.entries
  status : r'.status = r.status
  evaluationError : r'.evaluationError = r.evaluationError

theorem SourceText.Fated.refl (r : SourceText) : r.Fated r := ⟨rfl, rfl, rfl⟩

theorem SourceText.Fated.hasFailed {r r' : SourceText} (h : r.Fated r') :
    r'.hasFailed ↔ r.hasFailed := by
  rw [SourceText.hasFailed, SourceText.hasFailed, h.status, h.evaluationError]

namespace Store

theorem Each.lessen (s : Store) (m : ModuleId) : s.Each SourceText.Fated (s.lessen m) :=
  modifySource .refl s m fun _ _ ↦ ⟨rfl, rfl, rfl⟩

theorem pendingAsync_lessen {s : Store} {m x : ModuleId} {p p' : SourceText}
    (hp : s.source? x = some p) (hp' : (s.lessen m).source? x = some p') :
    p'.pendingAsync = if x = m then p.pendingAsync - 1 else p.pendingAsync := by
  rw [lessen, source?_modifySource, hp] at hp'
  split at hp' <;> cases hp' <;> simp_all

theorem asyncParents_lessen {s : Store} {m x : ModuleId} {p p' : SourceText}
    (hp : s.source? x = some p) (hp' : (s.lessen m).source? x = some p') :
    p'.asyncParents = p.asyncParents := by
  rw [lessen, source?_modifySource, hp] at hp'
  split at hp' <;> cases hp' <;> rfl

end Store

theorem Store.Each.await (s : Store) (m d : ModuleId) :
    s.Each SourceText.Fated (EvaluationWalk.await s m d) := by
  rcases EvaluationWalk.await_cases s m d with h | ⟨_, _, _, _, _, _, h⟩
  · rw [h]
    exact refl .refl s
  · rw [h]
    refine trans (fun _ _ _ h h' ↦ ⟨h'.entries.trans h.entries, h'.status.trans h.status,
      h'.evaluationError.trans h.evaluationError⟩) (modifySource .refl s m ?_)
      (modifySource .refl _ d ?_)
    all_goals exact fun _ _ ↦ ⟨rfl, rfl, rfl⟩

/-- Only one module comes to wait, and for one module only. -/
theorem Store.mem_parents_await {s : Store} {m d y z : ModuleId}
    (h : y ∈ (EvaluationWalk.await s m d).parents z) : y ∈ s.parents z ∨ y = m ∧ z = d := by
  rcases EvaluationWalk.await_cases s m d with heq | ⟨r, q, hr, hq, -, -, heq⟩
  · exact .inl (heq ▸ h)
  · rw [heq, Store.parents, Store.source?_modifySource, Store.source?_modifySource] at h
    rw [Store.parents]
    rcases hz : s.source? z with _ | p
    · simp [hz] at h
    · by_cases hzd : z = d <;> by_cases hzm : z = m <;> simp_all [List.mem_append]

namespace Bonds

variable {s s' : Store} {T : List Tour} {F F' X X' G G' : List ModuleId} {H H' : List Event}
  {m y z : ModuleId} {r p q : SourceText}

/-- Nobody that is not over knows a module that waits for nothing any more, unless it comes before
it among those that were set free. -/
theorem untied (h : Bonds s F X G H) (hs : Sound s.outline T F X G H) (hy : s.source? y = some p)
    (hp : p.status.isWaiting = true) (h0 : p.pendingAsync = 0)
    (hsub : ∀ z, ¬[z, y].Sublist (X ++ F)) (hz : s.source? z = some q)
    (hw : q.status.isWaiting = true) : y ∉ q.asyncParents := by
  intro hmem
  have hne := Status.ne_evaluated_of_isWaiting hp
  obtain ⟨l, hl, hle⟩ := hs.counted y _ (Store.outline_eq_some hy) (by simpa using hne)
  have hzero : p.outline.waitsFor = 0 := by simp [SourceText.waitsFor, h0]
  rw [hzero] at hle
  by_cases hpaid : q.entries.awaits = false ∧ z ∈ X ++ F
  · rcases h.told z hpaid.2 q hz hw hpaid.1 y hmem p hy with hf | hpos | hdue | hlist
    · exact hne hf.1
    · omega
    · have := List.count_pos_iff.2 hdue
      omega
    · exact hsub z hlist
  · have howes : Owes s.outline (F ++ X) z y := by
      refine ⟨_, Store.outline_eq_some hz, by simpa using hw, hmem, ?_⟩
      rw [not_and_or] at hpaid
      refine hpaid.imp (fun ha ↦ by simpa using ha) fun hz' hz'' ↦ hz' ?_
      exact List.mem_append.2 (List.mem_append.1 hz'').symm
    have := List.length_pos_of_mem (hl z howes)
    omega

/-- Nobody that is not over knows a module that waits for nothing any more and was not set free. -/
theorem untied_of_not_mem (h : Bonds s F X G H) (hs : Sound s.outline T F X G H)
    (hy : s.source? y = some p) (hp : p.status.isWaiting = true) (h0 : p.pendingAsync = 0)
    (hF : y ∉ F) (hb : y ∉ begun H) (hz : s.source? z = some q)
    (hw : q.status.isWaiting = true) : y ∉ q.asyncParents := by
  refine h.untied hs hy hp h0 (fun z hsub ↦ ?_) hz hw
  rcases List.mem_append.1 (hsub.subset (List.mem_cons_of_mem z List.mem_cons_self)) with hX | hF'
  · obtain ⟨_, -, -, hbegun⟩ := hs.lone y hX
    exact hb (Sound.mem_begun.2 hbegun)
  · exact hF hF'

/-- Nobody that is not over knows the first of the modules that were set free. -/
theorem untied_head (h : Bonds s (y :: F) [] G H) (hs : Sound s.outline T (y :: F) [] G H)
    (hy : s.source? y = some p) (hp : p.status.isWaiting = true) (hz : s.source? z = some q)
    (hw : q.status.isWaiting = true) : y ∉ q.asyncParents := by
  have h0 : p.pendingAsync = 0 := h.idle y List.mem_cons_self p hy hp
  obtain ⟨hnot, -⟩ := List.nodup_cons.1 hs.queue
  refine h.untied hs hy hp h0 (fun z hsub ↦ hnot ?_) hz hw
  rcases hsub with _ | hsub | hsub
  · exact (by assumption : [z, y].Sublist F).subset (List.mem_cons_of_mem z List.mem_cons_self)
  · exact List.singleton_sublist.1 (by assumption)

/-! ## Changes by which modules only fade -/

/-- What a change has to show by which modules only fade. -/
theorem fade (h : Bonds s F X G H) (hs : s.Each SourceText.Fades s')
    (hstands : ∀ z q q', s.source? z = some q → s'.source? z = some q' →
      q.status.isWaiting = true → q'.status.isWaiting = true → ∀ y ∈ q.asyncParents,
      ∀ p p', s.source? y = some p → s'.source? y = some p' → p.status.isWaiting = true →
      y ∉ begun H → p'.hasFailed ∨ p'.status.isWaiting = true ∧ y ∉ begun H')
    (hshared : ∀ d q q', s.source? d = some q → s'.source? d = some q' → ¬q.hasFailed →
      q'.hasFailed → ∀ y ∈ q.asyncParents, ∃ p', s'.source? y = some p' ∧ p'.hasFailed)
    (hF : F' ⊆ F)
    (htold : ∀ z ∈ X' ++ F', ∀ q', s'.source? z = some q' → q'.status.isWaiting = true →
      q'.entries.awaits = false →
      z ∈ X ++ F ∧ ∀ y, [z, y].Sublist (X ++ F) → [z, y].Sublist (X' ++ F'))
    (hG : G ⊆ G') : Bonds s' F' X' G' H' := by
  constructor
  · intro z q' hz' hw y hy
    obtain ⟨q, hz, hq⟩ := hs.before hz'
    rw [hq.asyncParents] at hy
    obtain ⟨p, hp, hstand⟩ := h.stands z q hz (hq.waiting hw) y hy
    obtain ⟨p', hp', hfade⟩ := hs.after hp
    refine ⟨p', hp', ?_⟩
    rcases hstand with hf | ⟨hwait, hb⟩
    · exact .inl (hfade.hasFailed hf)
    · exact hstands z q q' hz hz' (hq.waiting hw) hw y hy p p' hp hp' hwait hb
  · intro z hmem q' hz' hw hawaits y hy p' hp'
    obtain ⟨q, hz, hq⟩ := hs.before hz'
    obtain ⟨p, hp, hfade⟩ := hs.before hp'
    rw [hq.asyncParents] at hy
    obtain ⟨hmem₀, hsub⟩ := htold z hmem q' hz' hw hawaits
    rw [hfade.pendingAsync]
    refine (h.told z hmem₀ q hz (hq.waiting hw) (hq.entries ▸ hawaits) y hy p hp).imp
      hfade.hasFailed (Or.imp id (Or.imp (fun hdue ↦ hG hdue) (hsub y)))
  · intro y hy p' hp' hw
    obtain ⟨p, hp, hfade⟩ := hs.before hp'
    rw [hfade.pendingAsync]
    exact h.idle y (hF hy) p hp (hfade.waiting hw)
  · intro d q' hd' hf y hy
    obtain ⟨q, hd, hq⟩ := hs.before hd'
    rw [hq.asyncParents] at hy
    by_cases hf₀ : q.hasFailed
    · obtain ⟨p, hp, hpf⟩ := h.shared d q hd hf₀ y hy
      obtain ⟨p', hp', hfade⟩ := hs.after hp
      exact ⟨p', hp', hfade.hasFailed hpf⟩
    · exact hshared d q q' hd hd' hf₀ hf y hy

/-- Nothing changes that matters to those who wait. -/
theorem stay (h : Bonds s F X G H) (hs : s.Stands s') : Bonds s' F X G H := by
  have hback : ∀ {x r r'}, s.source? x = some r → s'.source? x = some r' → r.Stands r' := by
    intro x r r' hr hr'
    obtain ⟨r₀, hr₀, hstands⟩ := hs.before hr'
    obtain rfl : r₀ = r := Option.some.inj (hr₀.symm.trans hr)
    exact hstands
  refine h.fade (hs.mono fun _ _ ↦ .of_stands) ?_ ?_ (List.Subset.refl F) ?_ (List.Subset.refl G)
  · intro z q q' _ _ _ _ y _ p p' hp hp' hw hb
    exact .inr ⟨(hback hp hp').status ▸ hw, hb⟩
  · intro d q q' hd hd' hf hf'
    refine absurd ?_ hf
    have hstands := hback hd hd'
    exact ⟨hstands.status ▸ hf'.1, hstands.evaluationError ▸ hf'.2⟩
  · exact fun z hz _ _ _ _ ↦ ⟨hz, fun _ hsub ↦ hsub⟩

/-- Events that do not say that a body was called. -/
theorem events (h : Bonds s F X G H) (hH : begun H' = begun H) : Bonds s F X G H' where
  stands := hH ▸ h.stands
  told := h.told
  idle := h.idle
  shared := h.shared

/-- The body of a module is called that nobody knows. -/
theorem begin (h : Bonds s F X G H) {c : Option PromiseId}
    (hm : ∀ z q, s.source? z = some q → q.status.isWaiting = true → m ∉ q.asyncParents) :
    Bonds s F X G (.began m c :: H) where
  stands z q hz hw y hy := by
    obtain ⟨p, hp, hstand⟩ := h.stands z q hz hw y hy
    refine ⟨p, hp, hstand.imp id fun ⟨hwait, hb⟩ ↦ ⟨hwait, fun hmem ↦ ?_⟩⟩
    rcases List.mem_cons.1 hmem with rfl | hmem
    · exact hm z q hz hw hy
    · exact hb hmem
  told := h.told
  idle := h.idle
  shared := h.shared

/-! ## Components and walks that end -/

/-- A walk takes the component of a module off its stack. -/
theorem pop {goal : EvaluationGoal} {w : EvaluationWalk} {above below : List ModuleId}
    {J : List Job} (h : Bonds s F X G H) (hv : Valid ⟨s, ⟨goal, .through m, w⟩ :: T, F, X, G, J, H⟩)
    (hclear : ∀ y ∈ F, y ∉ w.stack) (hstack : w.stack = above ++ m :: below) (hm : m ∉ above) :
    Bonds (s.completeMembers m (above ++ [m])) F X G H := by
  have hs := hv.sound
  have htop : (⟨goal, .through m, w⟩ : Tour) ∈ (⟨goal, .through m, w⟩ :: T : List Tour) :=
    List.mem_cons_self
  have hnodup : (above ++ [m]).Nodup := by
    have : (above ++ m :: below).Nodup := hstack ▸ (List.nodup_append.1 hs.stacked).1
    refine List.Sublist.nodup ?_ this
    exact (List.append_sublist_append_left above).2 (List.singleton_sublist.2 List.mem_cons_self)
  have hmem : ∀ x ∈ above ++ [m], x ∈ w.stack := fun x hx ↦ by
    rw [hstack]
    simp only [List.mem_append, List.mem_cons, List.not_mem_nil, or_false] at hx ⊢
    exact hx.imp id .inl
  have hsource := s.source?_completeMembers hnodup m
  have hfades : s.Fades (s.completeMembers m (above ++ [m])) := .completeMembers s m _
  refine h.fade (hfades.mono fun _ _ hr ↦ hr.1) ?_ ?_ (List.Subset.refl F)
    (fun z hz _ _ _ _ ↦ ⟨hz, fun _ hsub ↦ hsub⟩) (List.Subset.refl G)
  · intro z q q' hz _ hwz _ y hy p p' hp hp' hw hb
    rw [hsource, hp] at hp'
    split at hp'
    · next hpop =>
      obtain rfl : p.complete m = p' := Option.some.inj hp'
      have L := hs.lawful y _ (Store.outline_eq_some hp)
      have hahead := (hs.not_ahead_of_popped hstack hm hpop).1
      have hwalked : p.status.isWalked = true := by
        simpa using L.stacked.1 ⟨_, htop, hmem y hpop⟩
      refine .inr ⟨?_, hb⟩
      change (EvaluationWalk.completeStatus p).isWaiting = true
      rcases EvaluationWalk.completeStatus_cases hwalked with
        ⟨-, -, hc⟩ | ⟨hst, hpending, -⟩ | ⟨-, -, hc⟩ | ⟨hst, hpending, -⟩
      · rw [hc]
        rfl
      · -- its body has ended, so it has begun
        obtain ⟨-, c, hended⟩ := (L.passed hahead (by simp [hst])).resolve_left hpending
        exact absurd (Sound.mem_begun.2 ⟨c, hv.called y c _ hended⟩) hb
      · rw [hc]
        rfl
      · -- it waits for nothing, so nobody knows it
        have h0 : p.pendingAsync = 0 := (L.searched hahead (by simp [hst])).resolve_left hpending
        have hF : y ∉ F := fun hyF ↦ hclear y hyF (hmem y hpop)
        exact absurd hy (h.untied_of_not_mem hs hp hw h0 hF hb hz hwz)
    · obtain rfl : p = p' := Option.some.inj hp'
      exact .inr ⟨hw, hb⟩
  · intro d q q' hd hd' hf hf'
    rw [hsource, hd] at hd'
    split at hd'
    · next hpop =>
      obtain rfl : q.complete m = q' := Option.some.inj hd'
      have L := hs.lawful d _ (Store.outline_eq_some hd)
      have hne : q.outline.status ≠ .evaluated := fun he ↦ by
        have := L.stacked.1 ⟨_, htop, hmem d hpop⟩
        rw [he] at this
        exact nomatch this
      have hnone : q.evaluationError = none := L.error hne
      have : q.evaluationError.isSome := hf'.2
      simp [hnone] at this
    · obtain rfl : q = q' := Option.some.inj hd'
      exact absurd hf' hf

/-- Modules fail, and whoever waits for them. -/
theorem spread (h : Bonds s F X G H) (hfades : s.Fades s')
    (hover : ∀ x r r', s.source? x = some r → s'.source? x = some r' → r' = r ∨ r'.hasFailed)
    (hshared : ∀ d q q', s.source? d = some q → s'.source? d = some q' → ¬q.hasFailed →
      q'.hasFailed → ∀ y ∈ q.asyncParents, ∃ p', s'.source? y = some p' ∧ p'.hasFailed) :
    Bonds s' F X G H := by
  refine h.fade (hfades.mono fun _ _ hr ↦ hr.1) ?_ hshared (List.Subset.refl F)
    (fun z hz _ _ _ _ ↦ ⟨hz, fun _ hsub ↦ hsub⟩) (List.Subset.refl G)
  intro z q q' _ _ _ _ y _ p p' hp hp' hw hb
  rcases hover y p p' hp hp' with rfl | hf
  · exact .inr ⟨hw, hb⟩
  · exact .inl hf

/-- A walk fails that leaves nobody behind who waits for a module on its stack. -/
theorem fail {goal : EvaluationGoal} {st : Stance} {w : EvaluationWalk} (h : Bonds s F X G H)
    (hs : Sound s.outline (⟨goal, st, w⟩ :: T) F X G H) (hclosed : s.Closed w.stack)
    (e : ErrorId) : Bonds (goal.fail s w.stack e).1 F X G H := by
  have htop : (⟨goal, st, w⟩ : Tour) ∈ (⟨goal, st, w⟩ :: T : List Tour) := List.mem_cons_self
  have hsource := goal.source?_fail s (List.nodup_append.1 hs.stacked).1 e
  have hfades : s.Fades (goal.fail s w.stack e).1 := .fail s w.stack e goal
  refine h.spread hfades (fun x r r' hr hr' ↦ ?_) fun d q q' hd hd' hf hf' y hy ↦ ?_
  · rw [hsource, hr] at hr'
    split at hr'
    · obtain rfl : r.fail e = r' := Option.some.inj hr'
      exact .inr ⟨rfl, rfl⟩
    · exact .inl (Option.some.inj hr').symm
  · have hmem : d ∈ w.stack := by
      by_contra hnot
      rw [hsource, if_neg hnot, hd] at hd'
      obtain rfl : q = q' := Option.some.inj hd'
      exact hf hf'
    have hwaiting : q.status.isWaiting = true := by
      have := (hs.lawful d _ (Store.outline_eq_some hd)).stacked.1 ⟨_, htop, hmem⟩
      simpa using Status.isWaiting_of_isWalked this
    obtain ⟨p, hp, hstand⟩ := h.stands d q hd hwaiting y hy
    rcases hclosed d hmem y (by simpa [Store.parents, hd] using hy) with hy' | hy'
    · exact ⟨p.fail e, by rw [hsource, if_pos hy', hp]; rfl, rfl, rfl⟩
    · have hover : p.status = .evaluated := by simpa [Store.status?, hp] using hy'
      obtain ⟨p', hp', hfade⟩ := hfades.after hp
      refine ⟨p', hp', hfade.1.hasFailed (hstand.resolve_right fun hwait ↦ ?_)⟩
      exact Status.ne_evaluated_of_isWaiting hwait.1 hover

/-- A module that is not over fails, and all that wait for it. -/
theorem reject (h : Bonds s F X G H) (hm : s.source? m = some r)
    (hs : r.status = .evaluated ∨ r.status.isWaiting = true) (e : ErrorId) :
    Bonds (s.rejectModule m e) F X G H := by
  have hspreads := spreads_rejectModule s m e
  have hfades : s.Fades (s.rejectModule m e) := .of_fails hspreads.fails
  refine h.spread hfades (fun x r r' hr hr' ↦ ?_) fun d q q' hd hd' hf hf' y hy ↦ ?_
  · rcases hspreads.fails x with hx | ⟨r₀, hr₀, -, hx⟩
    · exact .inl (Option.some.inj (hr'.symm.trans (hx.trans hr)))
    · obtain rfl : r₀.failed e = r' := Option.some.inj (hx.symm.trans hr')
      exact .inr ⟨rfl, rfl⟩
  · have hnew : NewlyOver s (s.rejectModule m e) d := by
      refine ⟨fun hover ↦ hf ?_, by simp [Store.status?, hd', hf'.1]⟩
      have hsame := hspreads.fails.of_evaluated hd (by simpa [Store.status?, hd] using hover)
      obtain rfl : q = q' := Option.some.inj (hsame.symm.trans hd')
      exact hf'
    -- only modules that are waiting fail
    obtain ⟨q₀, hq₀, hwaiting⟩ : ∃ q, s.source? d = some q ∧ q.status.isWaiting = true := by
      refine hspreads.within (fun x ↦ ∃ q, s.source? x = some q ∧ q.status.isWaiting = true)
        (fun x hx hne ↦ ?_) (fun z x hz hx hne ↦ ?_) d hnew
      · obtain rfl := List.mem_singleton.1 hx
        exact ⟨r, hm, hs.resolve_left fun hover ↦ hne (by simp [Store.status?, hm, hover])⟩
      · obtain ⟨q, hq, hw⟩ := hz
        obtain ⟨p, hp, hstand⟩ := h.stands z q hq hw x (by simpa [Store.parents, hq] using hx)
        refine ⟨p, hp, (hstand.resolve_left fun hf ↦ hne ?_).1⟩
        simp [Store.status?, hp, hf.1]
    obtain rfl : q = q₀ := Option.some.inj (hd.symm.trans hq₀)
    obtain ⟨p, hp, hstand⟩ := h.stands d q hd hwaiting y hy
    obtain ⟨p', hp', hfade⟩ := hfades.after hp
    refine ⟨p', hp', ?_⟩
    rcases hstand with hpf | ⟨hpw, -⟩
    · exact hfade.1.hasFailed hpf
    · have hover : (s.rejectModule m e).status? y = some .evaluated :=
        hspreads.parents d hnew y (by simpa [Store.parents, hd] using hy) (by simp [hp])
      rcases hspreads.fails y with hx | ⟨r₀, hr₀, -, hx⟩
      · refine absurd ?_ (Status.ne_evaluated_of_isWaiting hpw)
        simpa [Store.status?, hx, hp] using hover
      · obtain rfl : r₀.failed e = p' := Option.some.inj (hx.symm.trans hp')
        exact ⟨rfl, rfl⟩

/-! ## Modules that finish -/

/-- The lists of modules that were set free go on. -/
theorem relist (h : Bonds s F X G H) (hF : F' ⊆ F)
    (htold : ∀ z ∈ X' ++ F', ∀ q, s.source? z = some q → q.status.isWaiting = true →
      q.entries.awaits = false →
      z ∈ X ++ F ∧ ∀ y, [z, y].Sublist (X ++ F) → [z, y].Sublist (X' ++ F'))
    (hG : G ⊆ G') : Bonds s F' X' G' H := by
  refine h.fade (Store.Each.refl .refl s) ?_ ?_ hF htold hG
  · intro z q q' _ _ _ _ y _ p p' hp hp' hw hb
    obtain rfl : p = p' := Option.some.inj (hp.symm.trans hp')
    exact .inr ⟨hw, hb⟩
  · intro d q q' hd hd' hf hf'
    obtain rfl : q = q' := Option.some.inj (hd.symm.trans hd')
    exact absurd hf' hf

/-- The first of the modules that were set free is no longer one of them. -/
theorem dequeue (h : Bonds s F X G H) (hlist : X ++ F = m :: (X' ++ F')) (hF : F' ⊆ F)
    (hm : ∀ q, s.source? m = some q → q.status.isWaiting = true → q.entries.awaits = true) :
    Bonds s F' X' G H := by
  refine h.relist hF (fun z hz q hq hw hawaits ↦ ?_) (List.Subset.refl G)
  rw [hlist]
  refine ⟨List.mem_cons_of_mem m hz, fun y hsub ↦ ?_⟩
  cases hsub with
  | cons _ hsub => exact hsub
  | cons_cons _ _ =>
    rw [hm q hq hw] at hawaits
    exact nomatch hawaits

/-- A module is over, or was only searched and no longer waits. -/
theorem finish (h : Bonds s F X G H) (hfades : s.Fades s')
    (hne : ∀ x, x ≠ m → s'.source? x = s.source? x)
    (hm : ∀ q, s.source? m = some q → ∃ q', s'.source? m = some q' ∧
      q'.evaluationError = q.evaluationError ∧ (q'.status = q.status ∨
        q.evaluationError = none ∧
        ∀ z p, s.source? z = some p → p.status.isWaiting = true → m ∉ p.asyncParents)) :
    Bonds s' F X G H := by
  refine h.fade (hfades.mono fun _ _ hr ↦ hr.1) ?_ ?_ (List.Subset.refl F)
    (fun z hz _ _ _ _ ↦ ⟨hz, fun _ hsub ↦ hsub⟩) (List.Subset.refl G)
  · intro z q q' hz _ hwz _ y hy p p' hp hp' hw hb
    by_cases hym : y = m
    · subst hym
      obtain ⟨p₀, hp₀, -, hstatus⟩ := hm p hp
      obtain rfl : p₀ = p' := Option.some.inj (hp₀.symm.trans hp')
      rcases hstatus with hstatus | ⟨-, huntied⟩
      · exact .inr ⟨hstatus ▸ hw, hb⟩
      · exact absurd hy (huntied z q hz hwz)
    · rw [hne y hym] at hp'
      obtain rfl : p = p' := Option.some.inj (hp.symm.trans hp')
      exact .inr ⟨hw, hb⟩
  · intro d q q' hd hd' hf hf'
    exfalso
    by_cases hdm : d = m
    · subst hdm
      obtain ⟨q₀, hq₀, herror, hstatus⟩ := hm q hd
      obtain rfl : q₀ = q' := Option.some.inj (hq₀.symm.trans hd')
      rcases hstatus with hstatus | ⟨hnone, -⟩
      · exact hf ⟨hstatus ▸ hf'.1, herror ▸ hf'.2⟩
      · have := hf'.2
        rw [herror, hnone] at this
        exact nomatch this
    · rw [hne d hdm] at hd'
      obtain rfl : q = q' := Option.some.inj (hd.symm.trans hd')
      exact hf hf'

/-- A module that has begun is over. -/
theorem finishModule (h : Bonds s F X G H) (hs : Sound s.outline T F X G H) (hb : m ∈ begun H) :
    Bonds (s.finishModule m) F X G H := by
  refine h.finish (m := m) (.finishModule s m) (fun x hx ↦ ?_) fun q hq ↦ ?_
  · rw [Store.source?_finishModule, if_neg hx]
  · have hself : (s.finishModule m).source? m =
        some { q with asyncState := .settled, status := .evaluated } := by
      rw [Store.source?_finishModule, if_pos rfl, hq]
      rfl
    refine ⟨_, hself, rfl, ?_⟩
    by_cases hover : q.status = .evaluated
    · exact .inl hover.symm
    · have L := hs.lawful m _ (Store.outline_eq_some hq)
      refine .inr ⟨L.error (by simpa using hover), fun z p hz hw hmem ↦ ?_⟩
      obtain ⟨q₀, hq₀, hstand⟩ := h.stands z p hz hw m hmem
      obtain rfl : q = q₀ := Option.some.inj (hq.symm.trans hq₀)
      exact hstand.elim (fun hf ↦ hover hf.1) fun hwait ↦ hwait.2 hb

/-- The first of the modules that were set free was only searched. -/
theorem pastSearched (h : Bonds s (m :: F) [] G H) (hs : Sound s.outline T (m :: F) [] G H)
    (hm : s.source? m = some r) (hst : r.status = .asyncSubgraphsSearchingAsync) :
    Bonds (s.finishSearched m) F [] G H := by
  have hself : (s.finishSearched m).source? m =
      some { r with status := .asyncSubgraphsEvaluated, asyncState := .settled } := by
    rw [Store.source?_finishSearched, if_pos rfl, hm]
    rfl
  have hwaiting : r.status.isWaiting = true := by
    rw [hst]
    rfl
  have hfinish : Bonds (s.finishSearched m) (m :: F) [] G H := by
    refine h.finish (m := m) (.finishSearched hm hst) (fun x hx ↦ ?_) fun q hq ↦ ?_
    · rw [Store.source?_finishSearched, if_neg hx]
    · obtain rfl : r = q := Option.some.inj (hm.symm.trans hq)
      have L := hs.lawful m _ (Store.outline_eq_some hm)
      refine ⟨_, hself, rfl, .inr ⟨L.error ?_, fun z p hz hw ↦ ?_⟩⟩
      · simpa using Status.ne_evaluated_of_isWaiting hwaiting
      · exact h.untied_head hs hm hwaiting hz hw
  refine hfinish.dequeue rfl (List.subset_cons_self m F) fun q hq hw ↦ ?_
  obtain rfl : _ = q := Option.some.inj (hself.symm.trans hq)
  exact nomatch hw

/-! ## Modules that come to wait -/

/-- A walk enters a module. -/
theorem enter {goal : EvaluationGoal} {w : EvaluationWalk} {t₀ t : Traversal}
    (h : Bonds s F X G H) (hs : Sound s.outline (⟨goal, .coming m t₀, w⟩ :: T) F X G H)
    (hm : s.source? m = some r) (ha : r.arrival t₀ = .enter t)
    (hnot : r.status ≠ .asyncSubgraphsSearching) (hF : m ∉ F) :
    Bonds (EvaluationWalk.push s w m t).1 F X G H := by
  have hself : (EvaluationWalk.push s w m t).1.source? m = some (r.entered t w.index) := by
    rw [EvaluationWalk.push, Store.source?_modifySource, if_pos rfl, hm]
    rfl
  have hne : ∀ x, x ≠ m → (EvaluationWalk.push s w m t).1.source? x = s.source? x := fun x hx ↦ by
    rw [EvaluationWalk.push, Store.source?_modifySource, if_neg hx]
  have hstatus : (r.entered t w.index).status.isWaiting = true := by
    cases t <;> rfl
  have hover : r.status ≠ .evaluated := SourceText.arrival_not_evaluated ha
  have hb : m ∉ begun H := fun hmem ↦
    (hs.lawful m _ (Store.outline_eq_some hm)).not_begun_of_enter ha (Sound.mem_begun.1 hmem)
  have hlist : m ∉ X ++ F := fun hmem ↦ by
    rcases List.mem_append.1 hmem with hX | hF'
    · obtain ⟨_, -, -, hbegun⟩ := hs.lone m hX
      exact hb (Sound.mem_begun.2 hbegun)
    · exact hF hF'
  -- a module that waits keeps all that has to do with it
  have hkeeps : r.status.isWaiting = true →
      (r.entered t w.index).asyncParents = r.asyncParents ∧
        (r.entered t w.index).pendingAsync = r.pendingAsync := fun hw ↦ by
    obtain ⟨-, hstatus⟩ := SourceText.arrival_eq_enter ha
    cases hr : r.status <;>
      simp [hr, Status.outline, Status.isWaiting, SourceText.entered] at hstatus hnot hw ⊢
  have hdrops : r.status.isWaiting = false → (r.entered t w.index).asyncParents = [] := fun hw ↦ by
    cases hr : r.status <;> simp [hr, Status.isWaiting, SourceText.entered] at hw ⊢
  have hknows : ∀ z q', (EvaluationWalk.push s w m t).1.source? z = some q' →
      q'.status.isWaiting = true → ∀ y ∈ q'.asyncParents, ∃ q, s.source? z = some q ∧
        q.status.isWaiting = true ∧ y ∈ q.asyncParents ∧ q'.entries = q.entries := by
    intro z q' hz hw y hy
    by_cases hzm : z = m
    · subst hzm
      obtain rfl : r.entered t w.index = q' := Option.some.inj (hself.symm.trans hz)
      cases hwait : r.status.isWaiting with
      | false =>
        rw [hdrops hwait] at hy
        exact absurd hy List.not_mem_nil
      | true => exact ⟨r, hm, hwait, (hkeeps hwait).1 ▸ hy, rfl⟩
    · exact ⟨q', (hne z hzm).symm.trans hz, hw, hy, rfl⟩
  constructor
  · intro z q' hz hw y hy
    obtain ⟨q, hzq, hwq, hyq, -⟩ := hknows z q' hz hw y hy
    obtain ⟨p, hp, hstand⟩ := h.stands z q hzq hwq y hyq
    by_cases hym : y = m
    · subst hym
      exact ⟨_, hself, .inr ⟨hstatus, hb⟩⟩
    · exact ⟨p, (hne y hym).trans hp, hstand⟩
  · intro z hmem q' hz hw hawaits y hy p' hp'
    obtain ⟨q, hzq, hwq, hyq, hentries⟩ := hknows z q' hz hw y hy
    by_cases hym : y = m
    · subst hym
      obtain rfl : r.entered t w.index = p' := Option.some.inj (hself.symm.trans hp')
      obtain ⟨p, hp, hstand⟩ := h.stands z q hzq hwq y hyq
      obtain rfl : r = p := Option.some.inj (hm.symm.trans hp)
      have hwait := (hstand.resolve_left fun hf ↦ hover hf.1).1
      rw [(hkeeps hwait).2]
      exact (h.told z hmem q hzq hwq (hentries ▸ hawaits) y hyq r hm).imp
        (fun hf ↦ absurd hf.1 hover) id
    · exact h.told z hmem q hzq hwq (hentries ▸ hawaits) y hyq p' ((hne y hym).symm.trans hp')
  · intro y hy p' hp' hw
    have hym : y ≠ m := fun hym ↦ hF (hym ▸ hy)
    exact h.idle y hy p' ((hne y hym).symm.trans hp') hw
  · intro d q' hd hf y hy
    have hdm : d ≠ m := by
      rintro rfl
      obtain rfl : r.entered t w.index = q' := Option.some.inj (hself.symm.trans hd)
      exact Status.ne_evaluated_of_isWaiting hstatus hf.1
    obtain ⟨p, hp, hpf⟩ := h.shared d q' ((hne d hdm).symm.trans hd) hf y hy
    have hym : y ≠ m := by
      rintro rfl
      obtain rfl : r = p := Option.some.inj (hm.symm.trans hp)
      exact hover hpf.1
    exact ⟨p, (hne y hym).trans hp, hpf⟩

/-- Modules come to wait for others, or wait for less. -/
theorem adjust (h : Bonds s F X G H) (hs : s.Each SourceText.Fated s')
    (hparents : ∀ z q q', s.source? z = some q → s'.source? z = some q' → ∀ y ∈ q'.asyncParents,
      y ∈ q.asyncParents ∨ q.status.isWaiting = true ∧ ∃ p, s.source? y = some p ∧
        p.status.isWaiting = true ∧ y ∉ begun H)
    (htold : ∀ z ∈ X' ++ F', ∀ q q', s.source? z = some q → s'.source? z = some q' →
      q.status.isWaiting = true → q.entries.awaits = false → ∀ y ∈ q'.asyncParents,
      ∀ p p', s.source? y = some p → s'.source? y = some p' → p.hasFailed ∨
        0 < p'.pendingAsync ∨ y ∈ G' ∨ [z, y].Sublist (X' ++ F'))
    (hidle : ∀ y ∈ F', ∀ p p', s.source? y = some p → s'.source? y = some p' →
      p.status.isWaiting = true → p'.pendingAsync = 0) : Bonds s' F' X' G' H := by
  constructor
  · intro z q' hz' hw y hy
    obtain ⟨q, hz, hq⟩ := hs.before hz'
    rcases hparents z q q' hz hz' y hy with hy | ⟨-, p, hp, hwait, hb⟩
    · obtain ⟨p, hp, hstand⟩ := h.stands z q hz (hq.status ▸ hw) y hy
      obtain ⟨p', hp', hfated⟩ := hs.after hp
      refine ⟨p', hp', hstand.imp hfated.hasFailed.2 fun hwait ↦ ⟨?_, hwait.2⟩⟩
      rw [hfated.status]
      exact hwait.1
    · obtain ⟨p', hp', hfated⟩ := hs.after hp
      refine ⟨p', hp', .inr ⟨?_, hb⟩⟩
      rwa [hfated.status]
  · intro z hmem q' hz' hw hawaits y hy p' hp'
    obtain ⟨q, hz, hq⟩ := hs.before hz'
    obtain ⟨p, hp, hfated⟩ := hs.before hp'
    rw [hfated.hasFailed]
    exact htold z hmem q q' hz hz' (hq.status ▸ hw) (hq.entries ▸ hawaits) y hy p p' hp hp'
  · intro y hy p' hp' hw
    obtain ⟨p, hp, hfated⟩ := hs.before hp'
    exact hidle y hy p p' hp hp' (hfated.status ▸ hw)
  · intro d q' hd' hf y hy
    obtain ⟨q, hd, hq⟩ := hs.before hd'
    rw [hq.hasFailed] at hf
    rcases hparents d q q' hd hd' y hy with hy | ⟨hw, -⟩
    · obtain ⟨p, hp, hpf⟩ := h.shared d q hd hf y hy
      obtain ⟨p', hp', hfated⟩ := hs.after hp
      exact ⟨p', hp', hfated.hasFailed.2 hpf⟩
    · exact absurd hf.1 (Status.ne_evaluated_of_isWaiting hw)

/-- A module on the path of a walk comes to wait for another one. -/
theorem await {τ : Tour} {f : EvaluationFrame} (h : Bonds s F X G H)
    (hs : Sound s.outline T F X G H) (hτ : τ ∈ T) (hf : f ∈ τ.walk.frames)
    (hclear : ∀ y ∈ F, y ∉ τ.walk.stack) (d : ModuleId) :
    Bonds (EvaluationWalk.await s f.module d) F X G H := by
  rcases EvaluationWalk.await_cases s f.module d with heq | ⟨r, q, hr, hq, hpending, -, heq⟩
  · rwa [heq]
  have hF : f.module ∉ F := fun hmem ↦ hclear _ hmem (hs.mem_stack_of_mem_frames hτ hf)
  obtain ⟨hstatus, hasync, hb⟩ :=
    (hs.lawful _ _ (Store.outline_eq_some hr)).framed f.traversal ⟨τ, hτ, f, hf, rfl, rfl⟩
  have hwaitq : q.status.isWaiting = true := by
    simpa using (hs.lawful _ _ (Store.outline_eq_some hq)).pending hpending
  have hwaitr : r.status.isWaiting = true := by
    rw [← Status.isWaiting_outline, ← SourceText.outline_status, hstatus]
    cases f.traversal <;> rfl
  have hne : f.module ≠ d := fun hfd ↦ by
    obtain rfl : r = q := Option.some.inj (hr.symm.trans (hfd ▸ hq))
    exact hasync hpending
  -- the count of the one and the parents of the other change
  have hpendings : ∀ x p p', s.source? x = some p →
      (EvaluationWalk.await s f.module d).source? x = some p' →
      p'.pendingAsync = if x = f.module then p.pendingAsync + 1 else p.pendingAsync := by
    intro x p p' hp hp'
    rw [heq, Store.source?_modifySource, Store.source?_modifySource, hp] at hp'
    split at hp' <;> split at hp' <;> cases hp' <;> simp_all
  have hparents : ∀ x p p', s.source? x = some p →
      (EvaluationWalk.await s f.module d).source? x = some p' →
      ∀ y ∈ p'.asyncParents, y ∈ p.asyncParents ∨ x = d ∧ y = f.module := by
    intro x p p' hp hp' y hy
    rw [heq, Store.source?_modifySource, Store.source?_modifySource, hp] at hp'
    split at hp' <;> split at hp' <;> cases hp' <;> simp_all
  refine h.adjust (.await s _ _) (fun z p p' hz hz' y hy ↦ ?_) ?_ ?_
  · refine (hparents z p p' hz hz' y hy).imp id ?_
    rintro ⟨rfl, rfl⟩
    obtain rfl : q = p := Option.some.inj (hq.symm.trans hz)
    exact ⟨hwaitq, r, hr, hwaitr, fun hmem ↦ hb (Sound.mem_begun.1 hmem)⟩
  · intro z hmem p p' hz hz' hw hawaits y hy p₁ p₁' hp₁ hp₁'
    rw [hpendings y p₁ p₁' hp₁ hp₁']
    split
    · exact .inr (.inl (Nat.succ_pos _))
    · next hyf =>
      have hy' := (hparents z p p' hz hz' y hy).resolve_right fun hnew ↦ hyf hnew.2
      exact h.told z hmem p hz hw hawaits y hy' p₁ hp₁
  · intro y hy p p' hp hp' hw
    have hyf : y ≠ f.module := fun hyf ↦ hF (hyf ▸ hy)
    rw [hpendings y p p' hp hp', if_neg hyf]
    exact h.idle y hy p hp hw

/-! ## Modules that are told -/

/-- A module that is told is over, or waits for something. -/
theorem pending_pos (hs : Sound s.outline T F X (m :: G) H) (hm : s.source? m = some r)
    (hstatus : r.status ≠ .evaluated) : 0 < r.pendingAsync := by
  obtain ⟨l, -, hle⟩ := hs.counted m _ (Store.outline_eq_some hm) (by simpa using hstatus)
  have hcount : 0 < (m :: G).count m := List.count_pos_iff.2 List.mem_cons_self
  have hpos : 0 < r.outline.waitsFor := by omega
  unfold SourceText.waitsFor at hpos
  split at hpos
  · exact hpos
  · exact absurd hpos (Nat.lt_irrefl 0)

/-- A module that is told need not be told. -/
theorem skip (h : Bonds s F X (m :: G) H) (hs : Sound s.outline T F X (m :: G) H) :
    Bonds s F X G H where
  stands := h.stands
  told z hz q hq hw hawaits y hy p hp := by
    rcases h.told z hz q hq hw hawaits y hy p hp with hf | hpos | hdue | hlist
    · exact .inl hf
    · exact .inr (.inl hpos)
    · rcases List.mem_cons.1 hdue with rfl | hdue
      · obtain ⟨p₀, hp₀, hstand⟩ := h.stands z q hq hw y hy
        obtain rfl : p = p₀ := Option.some.inj (hp.symm.trans hp₀)
        refine hstand.imp id fun hwait ↦ .inl ?_
        exact pending_pos hs hp (Status.ne_evaluated_of_isWaiting hwait.1)
      · exact .inr (.inr (.inl hdue))
    · exact .inr (.inr (.inr hlist))
  idle := h.idle
  shared := h.shared

/-- A module is told that it waits for one less. -/
theorem lessen (h : Bonds s F X (m :: G) H) (hm : s.source? m = some r) (hF : m ∉ F)
    (h0 : r.pendingAsync - 1 ≠ 0) : Bonds (s.lessen m) F X G H := by
  refine h.adjust (.lessen s m) (fun z q q' hz hz' y hy ↦ .inl ?_) ?_ ?_
  · exact Store.asyncParents_lessen hz hz' ▸ hy
  · intro z hmem q q' hz hz' hw hawaits y hy p p' hp hp'
    rw [Store.asyncParents_lessen hz hz'] at hy
    rw [Store.pendingAsync_lessen hp hp']
    by_cases hym : y = m
    · subst hym
      obtain rfl : r = p := Option.some.inj (hm.symm.trans hp)
      rw [if_pos rfl]
      exact .inr (.inl (Nat.pos_of_ne_zero h0))
    · rw [if_neg hym]
      refine (h.told z hmem q hz hw hawaits y hy p hp).imp id (Or.imp id (Or.imp ?_ id))
      exact fun hdue ↦ (List.mem_cons.1 hdue).resolve_left hym
  · intro y hy p p' hp hp' hw
    have hym : y ≠ m := fun hym ↦ hF (hym ▸ hy)
    rw [Store.pendingAsync_lessen hp hp', if_neg hym]
    exact h.idle y hy p hp hw

/-- A module is told that it waits for nothing any more. -/
theorem release (h : Bonds s F [] (m :: G) H) (hm : s.source? m = some r)
    (hF : m ∉ F) (h0 : r.pendingAsync - 1 = 0) :
    Bonds (s.lessen m) (F ++ [m]) [] ((if r.entries.awaits then [] else r.asyncParents) ++ G)
      H := by
  refine h.adjust (.lessen s m) (fun z q q' hz hz' y hy ↦ .inl ?_) ?_ ?_
  · exact Store.asyncParents_lessen hz hz' ▸ hy
  · intro z hmem q q' hz hz' hw hawaits y hy p p' hp hp'
    rw [Store.asyncParents_lessen hz hz'] at hy
    rw [Store.pendingAsync_lessen hp hp']
    rcases List.mem_append.1 (show z ∈ F ++ [m] from hmem) with hz₀ | hzm
    · by_cases hym : y = m
      · -- it comes after all that were set free before
        subst hym
        refine .inr (.inr (.inr ?_))
        exact (List.singleton_sublist.2 hz₀).append (List.Sublist.refl [y])
      · rw [if_neg hym]
        refine (h.told z hz₀ q hz hw hawaits y hy p hp).imp id
          (Or.imp id (Or.imp (fun hdue ↦ ?_) fun hsub ↦ ?_))
        · exact List.mem_append_right _ ((List.mem_cons.1 hdue).resolve_left hym)
        · exact hsub.trans (List.sublist_append_left F [m])
    · obtain rfl := List.mem_singleton.1 hzm
      obtain rfl : r = q := Option.some.inj (hm.symm.trans hz)
      rw [hawaits]
      exact .inr (.inr (.inl (List.mem_append_left _ hy)))
  · intro y hy p p' hp hp' hw
    rw [Store.pendingAsync_lessen hp hp']
    rcases List.mem_append.1 hy with hy | hy
    · have hym : y ≠ m := fun hym ↦ hF (hym ▸ hy)
      rw [if_neg hym]
      exact h.idle y hy p hp hw
    · obtain rfl := List.mem_singleton.1 hy
      obtain rfl : r = p := Option.some.inj (hm.symm.trans hp)
      rw [if_pos rfl, h0]

/-! ## Moves -/

/-- What is aside from evaluation does not matter to those who wait. -/
theorem of_outline (h : Bonds s F X G H) (ho : s'.outline = s.outline) : Bonds s' F X G H := by
  have hs := Store.Each.of_outline ho
  have hback : ∀ {x r r'}, s.source? x = some r → s'.source? x = some r' →
      r'.outline = r.outline := by
    intro x r r' hr hr'
    obtain ⟨r₀, hr₀, heq⟩ := hs.before hr'
    obtain rfl : r₀ = r := Option.some.inj (hr₀.symm.trans hr)
    exact heq
  refine h.fade (hs.mono fun _ _ ↦ .of_outline) ?_ ?_ (List.Subset.refl F)
    (fun z hz _ _ _ _ ↦ ⟨hz, fun _ hsub ↦ hsub⟩) (List.Subset.refl G)
  · intro z q q' _ _ _ _ y _ p p' hp hp' hw hb
    refine .inr ⟨?_, hb⟩
    have hstatus : p'.status.outline = p.status.outline := congrArg (·.status) (hback hp hp')
    rwa [← Status.isWaiting_outline, hstatus, Status.isWaiting_outline]
  · intro d q q' hd hd' hf hf'
    exact absurd ((SourceText.Fades.of_outline (hback hd hd').symm).hasFailed hf') hf

/-- The module on top of the path of a walk is executed. -/
theorem run {goal : EvaluationGoal} {w : EvaluationWalk} {rest : List EvaluationFrame}
    {c : Option PromiseId} (h : Bonds s F X G H)
    (hs : Sound s.outline (⟨goal, .here, w⟩ :: T) F X G H) (hclear : ∀ y ∈ F, y ∉ w.stack)
    (hf : w.frames = ⟨m, .executing, []⟩ :: rest) (hm : s.source? m = some r)
    (h0 : r.pendingAsync = 0) : Bonds s F X G (.began m c :: H) := by
  have htop : (⟨goal, .here, w⟩ : Tour) ∈ (⟨goal, .here, w⟩ :: T : List Tour) := List.mem_cons_self
  have hframe : (⟨m, .executing, []⟩ : EvaluationFrame) ∈ w.frames := hf ▸ List.mem_cons_self
  obtain ⟨hstatus, -, hb⟩ := (hs.lawful m _ (Store.outline_eq_some hm)).framed .executing
    ⟨_, htop, _, hframe, rfl, rfl⟩
  have hw : r.status.isWaiting = true := by
    rw [← Status.isWaiting_outline, ← SourceText.outline_status, hstatus]
    rfl
  refine h.begin fun z q hz hwq ↦ ?_
  refine h.untied_of_not_mem hs hm hw h0 (fun hmem ↦ ?_) (fun hmem ↦ hb (Sound.mem_begun.1 hmem))
    hz hwq
  exact hclear m hmem (hs.mem_stack_of_mem_frames htop hframe)

/-- The first of the modules that were set free is executed. -/
theorem run_head {c : Option PromiseId} (h : Bonds s (m :: F) [] [] H)
    (hs : Sound s.outline [] (m :: F) [] [] H) (hm : s.source? m = some r)
    (hstatus : r.status ≠ .evaluated) : Bonds s (m :: F) [] [] (.began m c :: H) := by
  have hw : r.status.isWaiting = true := by
    rcases (hs.head hm hstatus).1 with ⟨hst, -⟩ | ⟨hst, -⟩ <;> rw [hst] <;> rfl
  exact h.begin fun z q hz hwq ↦ h.untied_head hs hm hw hz hwq

/-- A module that was set free has finished. -/
theorem freed (h : Bonds s F [m] G H) (hs : Sound s.outline T F [m] G H) :
    Bonds (s.finishModule m) F [] G H := by
  obtain ⟨-, -, -, hb⟩ := hs.lone m (List.mem_singleton.2 rfl)
  refine (h.finishModule hs (Sound.mem_begun.2 hb)).dequeue rfl (List.Subset.refl F)
    fun q hq hw ↦ ?_
  rw [Store.source?_finishModule, if_pos rfl] at hq
  obtain ⟨q₀, -, rfl⟩ := Option.map_eq_some_iff.1 hq
  exact nomatch hw

/-- A module that was set free has failed. -/
theorem freedError (h : Bonds s F [m] G H) (hs : Sound s.outline T F [m] G H) (e : ErrorId) :
    Bonds (s.rejectModule m e) F [] G H := by
  obtain ⟨q, hq, -, hb⟩ := hs.lone m (List.mem_singleton.2 rfl)
  obtain ⟨r, hm, rfl⟩ := Store.source?_of_outline hq
  have hover := (hs.lawful m _ hq).over_or_waiting hb
  simp only [SourceText.outline_status, Status.outline_eq_evaluated,
    Status.isWaiting_outline] at hover
  refine (h.reject hm hover e).dequeue rfl (List.Subset.refl F) fun p hp hw ↦ ?_
  obtain ⟨r', hr', hst⟩ := Store.status_rejectModule (e := e) hm
  obtain rfl : r' = p := Option.some.inj (hr'.symm.trans hp)
  exact absurd hst (Status.ne_evaluated_of_isWaiting hw)

end Bonds

end EcmaModules
