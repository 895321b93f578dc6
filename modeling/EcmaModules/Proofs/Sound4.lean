import EcmaModules.Proofs.Sound3

namespace EcmaModules

/-! ## Waiting -/

namespace EvaluationWalk

/-- A module comes to wait for another one, or nothing happens. -/
theorem await_cases (s : Store) (m d : ModuleId) :
    await s m d = s ∨ ∃ r q, s.source? m = some r ∧ s.source? d = some q ∧
      q.asyncState = .pending ∧ m ∉ q.asyncParents ∧
      await s m d = (s.modifySource m fun r ↦ { r with pendingAsync := r.pendingAsync + 1 }).modifySource
        d fun q ↦ { q with asyncParents := q.asyncParents ++ [m] } := by
  unfold await
  split
  · next r q hr hq =>
    split
    · next hc =>
      simp only [Bool.and_eq_true, decide_eq_true_eq, Bool.not_eq_true', List.contains_eq_mem,
        decide_eq_false_iff_not] at hc
      exact .inr ⟨r, q, hr, hq, hc.1.1.1, hc.2, rfl⟩
    · exact .inl rfl
  · exact .inl rfl

end EvaluationWalk

/-- The module waits for one more. -/
theorem Lawful.waitMore {p : Spot} {r : SourceText} (L : Lawful p r.outline) (ha : p.ahead)
    (hb : ¬p.begun) (hs : r.status.isWalked = true) :
    Lawful p ({ r with pendingAsync := r.pendingAsync + 1 } : SourceText).outline := by
  constructor
  · exact L.stacked
  · exact L.framed
  · exact L.running
  · exact L.passed
  · exact fun hn ↦ absurd ha hn
  · exact L.awaits
  · exact L.pending
  · exact L.waiting
  · exact fun h ↦ absurd h hb
  · exact L.evaluated
  · exact L.error
  · intro hf
    have := L.free hf
    cases hr : r.status <;> simp [hr, Status.isWalked, Status.outline] at hs this ⊢
    exact this
  · exact L.parents

/-- The module has one more parent. -/
theorem Lawful.addParent {p : Spot} {r : SourceText} {m : ModuleId} (L : Lawful p r.outline)
    (hm : m ∉ r.asyncParents) :
    Lawful p ({ r with asyncParents := r.asyncParents ++ [m] } : SourceText).outline := by
  constructor
  · exact L.stacked
  · exact L.framed
  · exact L.running
  · exact L.passed
  · exact L.searched
  · exact L.awaits
  · exact L.pending
  · exact L.waiting
  · exact L.begun
  · exact L.evaluated
  · exact L.error
  · exact L.free
  · refine List.nodup_append.2 ⟨L.parents, by simp, ?_⟩
    rintro a ha b hb rfl
    exact hm (List.mem_singleton.1 hb ▸ ha)

namespace Sound

open EvaluationWalk (await)

variable {s : Store} {o o' : Outline} {goal : EvaluationGoal} {st : Stance} {w : EvaluationWalk}
  {τ τ' : Tour} {T : List Tour} {F X G : List ModuleId} {H H' : List Event} {m : ModuleId}
  {r r' : SourceText}

/-- A module on the path of a walk waits for another one. -/
theorem await {d : ModuleId} (h : Sound s.outline T F X G H) {τ : Tour} (hτ : τ ∈ T)
    {f : EvaluationFrame} (hf : f ∈ τ.walk.frames) :
    Sound (EvaluationWalk.await s f.module d).outline T F X G H := by
  rcases EvaluationWalk.await_cases s f.module d with heq | ⟨r, q, hr, hq, hpending, hnot, heq⟩
  · rwa [heq]
  rw [heq]
  have hro := Store.outline_eq_some hr
  have hqo := Store.outline_eq_some hq
  have L := h.lawful _ _ hro
  have hframed : (spot T F X H f.module).framed f.traversal := ⟨τ, hτ, f, hf, rfl, rfl⟩
  obtain ⟨hs, hasync, hb⟩ := L.framed _ hframed
  -- a module on the path does not wait yet, so the two are different
  have hmd : f.module ≠ d := by
    intro hmd
    obtain rfl : r = q := by
      rw [hmd] at hr
      simpa [hr] using hq
    exact hasync hpending
  have hwalked : r.status.isWalked = true := by
    rw [← Status.isWalked_outline, ← SourceText.outline_status, hs]
    cases f.traversal <;> rfl
  set s₁ := s.modifySource f.module fun r ↦ { r with pendingAsync := r.pendingAsync + 1 } with hs₁
  set s₂ := s₁.modifySource d fun q ↦ { q with asyncParents := q.asyncParents ++ [f.module] } with hs₂
  have hself : s₂.outline f.module =
      some ({ r with pendingAsync := r.pendingAsync + 1 } : SourceText).outline := by
    rw [hs₂, Store.outline_modifySource_of_ne _ hmd, hs₁, Store.outline_modifySource_self hr]
  have hdself : s₂.outline d =
      some ({ q with asyncParents := q.asyncParents ++ [f.module] } : SourceText).outline := by
    refine Store.outline_modifySource_self ?_ _
    rw [hs₁, Store.source?_modifySource, if_neg (Ne.symm hmd), hq]
  have hne : ∀ x, x ≠ f.module → x ≠ d → s₂.outline x = s.outline x := fun x hx hx' ↦ by
    rw [hs₂, Store.outline_modifySource_of_ne _ hx', hs₁, Store.outline_modifySource_of_ne _ hx]
  -- what is known of a module after the move, in terms of the module before
  have hinv : ∀ x p, s₂.outline x = some p → ∃ p₀, s.outline x = some p₀ ∧
      p.entries = p₀.entries ∧ p.status = p₀.status ∧
      (p.asyncParents = p₀.asyncParents ∨ x = d ∧ p.asyncParents = p₀.asyncParents ++ [f.module]) ∧
      (p.pendingAsync = p₀.pendingAsync ∨ x = f.module) := by
    intro x p hp
    by_cases hx : x = f.module
    · subst hx
      rw [hself] at hp
      cases hp
      exact ⟨_, hro, rfl, rfl, .inl rfl, .inr rfl⟩
    · by_cases hx' : x = d
      · subst hx'
        rw [hdself] at hp
        cases hp
        exact ⟨_, hqo, rfl, rfl, .inr ⟨rfl, rfl⟩, .inl rfl⟩
      · rw [hne x hx hx'] at hp
        exact ⟨p, hp, rfl, rfl, .inl rfl, .inl rfl⟩
  have hfor : ∀ x p, s.outline x = some p → ∃ p', s₂.outline x = some p' ∧
      p'.entries = p.entries ∧ p'.dfsIndex = p.dfsIndex ∧
      p'.dfsAncestorIndex = p.dfsAncestorIndex := by
    intro x p hp
    by_cases hx : x = f.module
    · subst hx
      rw [hro] at hp
      cases hp
      exact ⟨_, hself, rfl, rfl, rfl⟩
    · by_cases hx' : x = d
      · subst hx'
        rw [hqo] at hp
        cases hp
        exact ⟨_, hdself, rfl, rfl, rfl⟩
      · exact ⟨p, by rwa [hne x hx hx'], rfl, rfl, rfl⟩
  have hkeeps : Keeps s.outline s₂.outline := fun x p hp ↦ by
    obtain ⟨p', hp', he, -⟩ := hfor x p hp
    exact ⟨p', hp', he⟩
  have howes : ∀ e x, Owes s₂.outline (F ++ X) e x →
      Owes s.outline (F ++ X) e x ∨ (e = d ∧ x = f.module) := by
    rintro e x ⟨p, hp, hw, hmem, hz⟩
    obtain ⟨p₀, hp₀, he, hs, hparents, -⟩ := hinv e p hp
    rcases hparents with hparents | ⟨rfl, hparents⟩
    · exact .inl ⟨p₀, hp₀, hs ▸ hw, hparents ▸ hmem, he ▸ hz⟩
    · rw [hparents, List.mem_append, List.mem_singleton] at hmem
      exact hmem.imp (fun hmem ↦ ⟨p₀, hp₀, hs ▸ hw, hmem, he ▸ hz⟩) fun hmem ↦ ⟨rfl, hmem⟩
  constructor
  · exact h.stacked
  · exact h.path
  · exact h.rooted
  · intro τ hτ b hb
    obtain ⟨p, hp, h0, h0'⟩ := h.ground τ hτ b hb
    obtain ⟨p', hp', -, hi, hi'⟩ := hfor b p hp
    exact ⟨p', hp', hi ▸ h0, hi' ▸ h0'⟩
  · exact h.start
  · exact fun τ hτ x hx ↦ hkeeps.isSome (h.known τ hτ x hx)
  · exact fun τ hτ e he ↦ hkeeps.isSome (h.back τ hτ e he)
  · exact h.queue
  · exact h.lone_of_keeps hkeeps
  · exact h.onceBegun
  · exact h.began_of_keeps hkeeps
  · intro x p hp
    by_cases hx : x = f.module
    · subst hx
      rw [hself] at hp
      cases hp
      exact L.waitMore (.inr ⟨_, hframed⟩) hb hwalked
    · by_cases hx' : x = d
      · subst hx'
        rw [hdself] at hp
        cases hp
        exact (h.lawful _ _ hqo).addParent hnot
      · exact h.lawful x p (by rwa [hne x hx hx'] at hp)
  · intro x p hp hps
    obtain ⟨p₀, hp₀, -, hs', -, hwaits⟩ := hinv x p hp
    by_cases hx : x = f.module
    · subst hx
      obtain ⟨l, hl, hle⟩ := h.counted _ _ hro (by
        rw [hs]
        cases f.traversal <;> exact nofun)
      rw [hself] at hp
      cases hp
      refine ⟨d :: l, fun e he ↦ ?_, ?_⟩
      · rcases howes e _ he with he | ⟨rfl, -⟩
        · exact List.mem_cons_of_mem _ (hl e he)
        · exact List.mem_cons_self
      · have hwait : r.status.isWaiting = true := by
          cases hr : r.status <;> simp [hr, Status.isWalked] at hwalked <;> rfl
        simp only [SourceText.waitsFor, SourceText.outline_status, Status.isWaiting_outline, hwait,
          if_true, SourceText.outline_pendingAsync, List.length_cons] at hle ⊢
        omega
    · have hwaits : p.pendingAsync = p₀.pendingAsync := hwaits.resolve_right hx
      refine (h.counted x p₀ hp₀ (hs' ▸ hps)).mono (fun e he ↦ ?_) (Nat.le_refl _) ?_
      · exact (howes e x he).resolve_right fun h ↦ hx h.2
      · simp [SourceText.waitsFor, hs', hwaits]

/-- A module gets to know an earlier point that it leads back to. -/
theorem lowerAncestor (h : Sound s.outline T F X G H) (m : ModuleId) (i : Nat) :
    Sound (s.lowerAncestor m i).outline T F X G H :=
  h.modifySource m fun r ↦ .lowerAncestor r i

theorem detach (h : Sound s.outline T F X G H) (w : EvaluationWalk) (m : ModuleId) :
    Sound (EvaluationWalk.detach s w m).outline T F X G H := by
  unfold EvaluationWalk.detach
  split
  · exact h.modifySource m fun r ↦ ⟨rfl, rfl, rfl, rfl, rfl, rfl, fun h h' ↦ ⟨h, h'⟩⟩
  · exact h

theorem newCapability (h : Sound s.outline T F X G H) (m : ModuleId) :
    Sound (s.newCapability m).2.outline T F X G H := by
  have ho : (s.newPromise).2.outline = s.outline := Store.outline_congr rfl
  refine modifySource (s := s.newPromise.2) (ho ▸ h) m fun r ↦
    ⟨rfl, rfl, rfl, rfl, rfl, rfl, fun h h' ↦ ⟨h, h'⟩⟩

end Sound
end EcmaModules
