import EcmaModules.Proofs.Sound

namespace EcmaModules

/-- What a walk may enter. -/
theorem SourceText.arrival_eq_enter {r : SourceText} {t₀ t : Traversal}
    (h : r.arrival t₀ = .enter t) :
    (r.entries.awaits = true → t = .executing) ∧
      (r.status.outline = .linked ∨ t = .executing ∧ (r.status = .asyncSubgraphsSearching ∨
        r.status = .asyncSubgraphsSearchingAsync ∨ r.status = .asyncSubgraphsEvaluated)) := by
  unfold arrival traversal at h
  cases hw : r.entries.awaits <;> cases t₀ <;> cases hs : r.status <;>
    rcases he : r.evaluationError with _ | e <;> simp_all [Status.outline]

/-- A module that is entered was not begun before. -/
theorem Lawful.not_begun_of_enter {p : Spot} {r : SourceText} {t₀ t : Traversal}
    (L : Lawful p r.outline) (ha : r.arrival t₀ = .enter t) : ¬p.begun := fun hb ↦ by
  have hb := L.begun hb
  obtain ⟨-, hstatus⟩ := SourceText.arrival_eq_enter ha
  simp only [SourceText.outline_status, Status.outline_eq_evaluated,
    Status.outline_eq_evaluating, Status.outline_eq_evaluatingAsync] at hb
  cases hr : r.status <;> simp [hr, Status.outline] at hb hstatus

theorem SourceText.status_outline_entered (r : SourceText) (t : Traversal) (i : Nat) :
    (r.entered t i).outline.status = t.status := by
  rw [outline_status]
  cases t <;> rfl

/-- What a module that is entered has kept. -/
theorem SourceText.entered_keeps {r : SourceText} {t₀ t : Traversal} (i : Nat)
    (ha : r.arrival t₀ = .enter t) (hs : r.status ≠ .asyncSubgraphsSearching) :
    r.outline.waitsFor ≤ (r.entered t i).outline.waitsFor ∧
      ((r.entered t i).outline.asyncParents = [] ∨
        (r.status = .asyncSubgraphsSearchingAsync ∧
          (r.entered t i).outline.asyncParents = r.asyncParents)) := by
  obtain ⟨-, hstatus⟩ := SourceText.arrival_eq_enter ha
  have hw : t.status.isWaiting = true := by cases t <;> rfl
  have hr : r.status = .asyncSubgraphsSearchingAsync ∨
      r.status.isWaiting = false ∧ r.status ≠ .asyncSubgraphsSearchingAsync := by
    cases hr : r.status <;> simp [hr, Status.outline, Status.isWaiting] at hstatus hs ⊢
  unfold waitsFor
  rw [status_outline_entered, hw]
  rcases hr with hr | ⟨hr, hr'⟩
  · simp [entered, hr, Status.isWaiting, Status.outline]
  · simp [entered, hr, hr', hs]

/-- A module that is entered, in its new place. -/
theorem Lawful.entered {p p' : Spot} {r : SourceText} {t₀ t : Traversal} (i : Nat)
    (L : Lawful p r.outline) (ha : r.arrival t₀ = .enter t)
    (hs : r.status ≠ .asyncSubgraphsSearching) (hstacked : p'.stacked)
    (hframed : ∀ t', p'.framed t' → t' = t) (hrun : ¬p'.running) (hahead : p'.ahead)
    (hb : p'.begun → p.begun) (hF : p'.free → p.free) :
    Lawful p' (r.entered t i).outline := by
  obtain ⟨hawait, hstatus⟩ := SourceText.arrival_eq_enter ha
  have hbegun : ¬p'.begun := fun h ↦ L.not_begun_of_enter ha (hb h)
  have hqs := r.status_outline_entered t i
  have hasync : (r.entered t i).outline.asyncState = .none := rfl
  have hentries : (r.entered t i).outline.entries = r.entries := rfl
  constructor
  · refine iff_of_true hstacked ?_
    rw [hqs]
    cases t <;> rfl
  · intro t' ht'
    rw [hframed t' ht']
    exact ⟨hqs, by rw [hasync]; exact nofun, hbegun⟩
  · exact fun hr ↦ absurd hr hrun
  · exact fun hn ↦ absurd hahead hn
  · exact fun hn ↦ absurd hahead hn
  · intro ha'
    rw [hqs, hawait (hentries ▸ ha')]
    simp [Traversal.status]
  · rw [hasync]
    exact nofun
  · rw [hqs]
    cases t <;> simp [Traversal.status]
  · exact fun hb ↦ absurd hb hbegun
  · rw [hqs]
    cases t <;> simp [Traversal.status]
  · refine fun _ ↦ L.error fun he ↦ ?_
    rw [SourceText.outline_status, Status.outline_eq_evaluated] at he
    simp [he, Status.outline] at hstatus
  · -- only one that was searched, and waits no longer, can be among those that were set free
    intro hfree
    have hf := L.free (hF hfree)
    have hw := L.awaits
    simp only [SourceText.outline_status, SourceText.outline_entries, Status.outline_eq_evaluated,
      Status.outline_eq_evaluating, Status.outline_eq_evaluatingAsync,
      Status.outline_eq_searchingAsync] at hf hw
    rw [hqs, hentries]
    cases hr : r.status <;> simp [hr, Status.outline] at hf hstatus hw ⊢
    exact .inr (.inr (.inr ⟨by rw [hstatus]; rfl, hw⟩))
  · rcases (SourceText.entered_keeps i ha hs).2 with h | ⟨-, h⟩
    · rw [h]
      exact List.nodup_nil
    · rw [h]
      exact L.parents

namespace Sound

variable {s : Store} {goal : EvaluationGoal} {st : Stance} {w : EvaluationWalk} {T : List Tour}
  {F X G : List ModuleId} {H : List Event}

theorem not_mem_stack {o : Outline} (h : Sound o T F X G H) {d : ModuleId} {r : SourceText}
    (hd : o d = some r) (hs : r.status.isWalked = false) : ∀ τ ∈ T, d ∉ τ.walk.stack :=
  fun τ hτ hmem ↦ by
    have := (h.lawful d r hd).stacked.1 ⟨τ, hτ, hmem⟩
    simp [hs] at this

theorem mem_stack_of_mem_frames {o : Outline} (h : Sound o T F X G H) {τ : Tour} (hτ : τ ∈ T)
    {f : EvaluationFrame} (hf : f ∈ τ.walk.frames) : f.module ∈ τ.walk.stack :=
  (h.path τ hτ).subset (List.mem_append_right _ (List.mem_map_of_mem hf))

/-- The modules and their entries are the same. -/
def Keeps (o o' : Outline) : Prop :=
  ∀ x r, o x = some r → ∃ r', o' x = some r' ∧ r'.entries = r.entries

theorem lone_of_keeps {o o' : Outline} (h : Sound o T F X G H) (hk : Keeps o o') :
    ∀ x ∈ X, ∃ r, o' x = some r ∧ r.entries.awaits = false ∧ ∃ c, .began x c ∈ H := by
  intro x hx
  obtain ⟨r, hr, hw, hb⟩ := h.lone x hx
  obtain ⟨r', hr', he⟩ := hk x r hr
  exact ⟨r', hr', by rw [he, hw], hb⟩

theorem began_of_keeps {o o' : Outline} (h : Sound o T F X G H) (hk : Keeps o o') :
    ∀ x c, .began x c ∈ H → ∃ r, o' x = some r ∧ c.isSome = r.entries.awaits := by
  intro x c hc
  obtain ⟨r, hr, hw⟩ := h.began x c hc
  obtain ⟨r', hr', he⟩ := hk x r hr
  exact ⟨r', hr', by rw [he, hw]⟩

theorem Keeps.isSome {o o' : Outline} (hk : Keeps o o') {x : ModuleId} (hx : (o x).isSome) :
    (o' x).isSome := by
  obtain ⟨r, hr⟩ := Option.isSome_iff_exists.1 hx
  obtain ⟨r', hr', _⟩ := hk x r hr
  simp [hr']

/-- A walk enters a module. -/
theorem enter {t₀ t : Traversal} {d : ModuleId} {r : SourceText}
    (h : Sound s.outline (⟨goal, .coming d t₀, w⟩ :: T) F X G H) (hd : s.source? d = some r)
    (ha : r.arrival t₀ = .enter t) (hs : r.status ≠ .asyncSubgraphsSearching) :
    Sound (EvaluationWalk.push s w d t).1.outline
      (⟨goal, .here, (EvaluationWalk.push s w d t).2⟩ :: T) F X G H := by
  have hdo := Store.outline_eq_some hd
  have hwalked : r.status.isWalked = false := by
    obtain ⟨-, hstatus⟩ := SourceText.arrival_eq_enter ha
    cases hr : r.status <;> simp [hr, Status.outline] at hstatus hs <;> rfl
  have L := h.lawful d _ hdo
  have hnot := h.not_mem_stack hdo (by simpa using hwalked)
  set q : SourceText := r.entered t w.index with hq
  have hself : (EvaluationWalk.push s w d t).1.outline d = some q.outline :=
    Store.outline_modifySource_self hd _
  have hne : ∀ x, x ≠ d → (EvaluationWalk.push s w d t).1.outline x = s.outline x := fun x hx ↦
    Store.outline_modifySource_of_ne s hx _
  have hkeeps : Keeps s.outline (EvaluationWalk.push s w d t).1.outline := by
    intro x p hp
    by_cases hxd : x = d
    · subst hxd
      obtain rfl : r.outline = p := by simpa [hdo] using hp
      exact ⟨q.outline, hself, rfl⟩
    · exact ⟨p, by rwa [hne x hxd], rfl⟩
  have hsome : ∀ x, (s.outline x).isSome → ((EvaluationWalk.push s w d t).1.outline x).isSome :=
    fun _ ↦ hkeeps.isSome
  obtain ⟨hpending, hparents⟩ := SourceText.entered_keeps w.index ha hs
  rw [← hq] at hpending hparents
  -- whom the module lets wait does not grow, and what it waits for is no less than before
  have howes : ∀ e x, Owes (EvaluationWalk.push s w d t).1.outline (F ++ X) e x →
      Owes s.outline (F ++ X) e x := by
    rintro e x ⟨p, hp, hpw, hmem, hz⟩
    by_cases hed : e = d
    · subst hed
      rw [hself] at hp
      cases hp
      rcases hparents with hnil | ⟨hstatus, hkept⟩
      · rw [hnil] at hmem
        exact absurd hmem List.not_mem_nil
      · rw [hkept] at hmem
        exact ⟨r.outline, hdo, by rw [SourceText.outline_status, hstatus]; rfl, hmem, hz⟩
    · rw [hne e hed] at hp
      exact ⟨p, hp, hpw, hmem, hz⟩
  have hspot : ∀ x, x ≠ d → spot (⟨goal, .here, (EvaluationWalk.push s w d t).2⟩ :: T) F X H x =
      spot (⟨goal, .coming d t₀, w⟩ :: T) F X H x := by
    intro x hx
    apply Spot.ext <;> simp [spot, EvaluationWalk.push, Ne.symm hx, hx]
  have htop : (⟨goal, .coming d t₀, w⟩ : Tour) ∈ (⟨goal, .coming d t₀, w⟩ :: T : List Tour) :=
    List.mem_cons_self
  have htail : ∀ {P : Tour → Prop}, P ⟨goal, .here, (EvaluationWalk.push s w d t).2⟩ →
      (∀ τ ∈ (⟨goal, .coming d t₀, w⟩ :: T : List Tour), P τ) →
      ∀ τ ∈ (⟨goal, .here, (EvaluationWalk.push s w d t).2⟩ :: T : List Tour), P τ :=
    fun h0 h ↦ List.forall_mem_cons.2 ⟨h0, (List.forall_mem_cons.1 h).2⟩
  constructor
  · refine List.nodup_cons.2 ⟨fun hmem ↦ ?_, h.stacked⟩
    obtain ⟨τ, hτ, hx⟩ := List.mem_flatMap.1
      (show d ∈ (⟨goal, .coming d t₀, w⟩ :: T : List Tour).flatMap (·.walk.stack) from hmem)
    exact hnot τ hτ hx
  · exact htail ((h.path _ htop).cons_cons d) h.path
  · refine htail ?_ h.rooted
    have := h.rooted _ htop
    simp only [Tour.path, Stance.top, List.nil_append] at this
    simp only [Tour.path, Stance.top, EvaluationWalk.push, List.nil_append, List.map_cons,
      List.getLast?_cons, this]
  · have hground : ∀ b, (∃ q, s.outline b = some q ∧ q.dfsIndex = 0 ∧ q.dfsAncestorIndex = 0) →
        b ≠ d → ∃ q, (EvaluationWalk.push s w d t).1.outline b = some q ∧ q.dfsIndex = 0 ∧
          q.dfsAncestorIndex = 0 := fun b hb hbd ↦ by rwa [hne b hbd]
    have hnotd : ∀ τ ∈ (⟨goal, .coming d t₀, w⟩ :: T : List Tour), ∀ b,
        τ.walk.stack.getLast? = some b → b ≠ d := by
      rintro τ hτ b hb rfl
      exact hnot τ hτ (List.mem_of_getLast? hb)
    refine List.forall_mem_cons.2 ⟨fun b hb ↦ ?_, fun τ hτ b hb ↦ ?_⟩
    · rcases hw : w.stack with _ | ⟨c, rest⟩
      · -- the walk starts here
        have hframes : w.frames = [] := by
          have := (h.path _ htop).length_le
          simpa [Tour.path, Stance.top, hw] using this
        have hw0 : w.index = 0 := by
          have : w = {} := h.start _ htop d t₀ rfl hframes
          rw [this]
        have hbd : d = b := by simpa [EvaluationWalk.push, hw] using hb
        subst hbd
        refine ⟨q.outline, hself, ?_⟩
        simp [SourceText.outline, hq, SourceText.entered, hw0]
      · have hb' : w.stack.getLast? = some b := by
          simpa [EvaluationWalk.push, hw, List.getLast?_cons] using hb
        exact hground b (h.ground _ htop b hb') (hnotd _ htop b hb')
    · exact hground b (h.ground τ (List.mem_cons_of_mem _ hτ) b hb)
        (hnotd τ (List.mem_cons_of_mem _ hτ) b hb)
  · exact htail (fun _ _ h ↦ absurd h (by simp)) h.start
  · refine fun τ hτ x hx ↦ ?_
    rcases List.mem_cons.1 hτ with rfl | hτ
    · rcases List.mem_cons.1 hx with rfl | hx
      · simp [hself]
      · exact hsome x (h.known _ htop x hx)
    · exact hsome x (h.known τ (List.mem_cons_of_mem _ hτ) x hx)
  · refine htail (fun _ h ↦ absurd h (by simp)) fun τ hτ e he ↦ hsome e (h.back τ hτ e he)
  · exact h.queue
  · exact h.lone_of_keeps hkeeps
  · exact h.onceBegun
  · exact h.began_of_keeps hkeeps
  · intro x p hp
    by_cases hxd : x = d
    · subst hxd
      obtain rfl : q.outline = p := by simpa [hself] using hp
      refine L.entered w.index ha hs ⟨_, List.mem_cons_self, List.mem_cons_self⟩ ?_ ?_
        (.inr ⟨t, _, List.mem_cons_self, _, List.mem_cons_self, rfl, rfl⟩) id id
      · rintro t' ⟨τ, hτ, f, hf, hfx, hft⟩
        rcases List.mem_cons.1 hτ with rfl | hτ
        · rcases List.mem_cons.1 hf with rfl | hf
          · exact hft.symm
          · exact absurd (hfx ▸ h.mem_stack_of_mem_frames htop hf) (hnot _ htop)
        · exact absurd (hfx ▸ h.mem_stack_of_mem_frames (List.mem_cons_of_mem _ hτ) hf)
            (hnot τ (List.mem_cons_of_mem _ hτ))
      · rintro ⟨τ, hτ, hrun⟩
        rcases List.mem_cons.1 hτ with rfl | hτ
        · contradiction
        · have := (L.running ⟨τ, List.mem_cons_of_mem _ hτ, hrun⟩).1
          rw [SourceText.outline_status, Status.outline_eq_evaluating] at this
          simp [this, Status.isWalked] at hwalked
    · rw [hspot x hxd]
      exact h.lawful x p (by rwa [hne x hxd] at hp)
  · intro x p hp hps
    by_cases hxd : x = d
    · subst hxd
      obtain rfl : q.outline = p := by simpa [hself] using hp
      refine (h.counted x _ hdo fun he ↦ ?_).mono (fun e ↦ howes e x) (Nat.le_refl _) hpending
      rw [SourceText.outline_status, Status.outline_eq_evaluated] at he
      obtain ⟨-, hstatus⟩ := SourceText.arrival_eq_enter ha
      simp [he, Status.outline] at hstatus
    · exact (h.counted x p (by rwa [hne x hxd] at hp) hps).mono (fun e ↦ howes e x)
        (Nat.le_refl _) (Nat.le_refl _)

end Sound

end EcmaModules
