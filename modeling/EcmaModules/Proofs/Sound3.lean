import EcmaModules.Proofs.Sound2

namespace EcmaModules
namespace Sound

variable {s : Store} {o o' : Outline} {goal : EvaluationGoal} {st : Stance} {w : EvaluationWalk}
  {τ τ' : Tour} {T : List Tour} {F X G : List ModuleId} {H H' : List Event} {m : ModuleId}
  {r r' : SourceText}

/-- A move that concerns a single module, and leaves the path and the stack of the walk as they
are. -/
theorem local_move (h : Sound o (τ :: T) F X G H) (hpath : τ'.path = τ.path)
    (hstack : τ'.walk.stack = τ.walk.stack) (hcoming : ∀ d t, τ'.stance ≠ .coming d t)
    (hback : ∀ d, τ'.stance ≠ .back d) (hm : o m = some r) (hm' : o' m = some r')
    (hne : ∀ x, x ≠ m → o' x = o x) (hentries : r'.entries = r.entries)
    (hground : r.dfsIndex = 0 → r.dfsAncestorIndex = 0 →
      r'.dfsIndex = 0 ∧ r'.dfsAncestorIndex = 0)
    (hparents : r'.asyncParents = r.asyncParents) (hstatus : r'.status = r.status)
    (hwaits : r'.pendingAsync = r.pendingAsync) (hH : H ⊆ H') (hnodup : (begun H').Nodup)
    (hbegan : ∀ x c, .began x c ∈ H' → .began x c ∈ H ∨ x = m ∧ c.isSome = r.entries.awaits)
    (hspot : ∀ x, x ≠ m → spot (τ' :: T) F X H' x = spot (τ :: T) F X H x)
    (hL : Lawful (spot (τ' :: T) F X H' m) r') : Sound o' (τ' :: T) F X G H' := by
  have hkeeps : Keeps o o' := fun x p hp ↦ by
    by_cases hx : x = m
    · subst hx
      obtain rfl : r = p := by simpa [hm] using hp
      exact ⟨r', hm', hentries⟩
    · exact ⟨p, by rwa [hne x hx], rfl⟩
  have htop : τ ∈ τ :: T := List.mem_cons_self
  have hback' : ∀ {P : Tour → Prop}, P τ' → (∀ τ' ∈ τ :: T, P τ') → ∀ τ'' ∈ τ' :: T, P τ'' :=
    fun h0 h ↦ List.forall_mem_cons.2 ⟨h0, (List.forall_mem_cons.1 h).2⟩
  have hg : ∀ b, (∃ q, o b = some q ∧ q.dfsIndex = 0 ∧ q.dfsAncestorIndex = 0) →
      ∃ q, o' b = some q ∧ q.dfsIndex = 0 ∧ q.dfsAncestorIndex = 0 := by
    rintro b ⟨q, hq, h0, h0'⟩
    by_cases hb : b = m
    · subst hb
      obtain rfl : r = q := by simpa [hm] using hq
      exact ⟨r', hm', hground h0 h0'⟩
    · exact ⟨q, by rwa [hne b hb], h0, h0'⟩
  have howes : ∀ e x, Owes o' (F ++ X) e x → Owes o (F ++ X) e x := by
    rintro e x ⟨q, hq, hw, hmem, hz⟩
    by_cases he : e = m
    · subst he
      obtain rfl : r' = q := by simpa [hm'] using hq
      exact ⟨r, hm, hstatus ▸ hw, hparents ▸ hmem, hentries ▸ hz⟩
    · exact ⟨q, by rwa [hne e he] at hq, hw, hmem, hz⟩
  constructor
  · simpa [hstack] using h.stacked
  · exact hback' (by rw [hpath, hstack]; exact h.path τ htop) h.path
  · exact hback' (by rw [hpath, hstack]; exact h.rooted τ htop) h.rooted
  · refine hback' ?_ fun τ hτ b hb ↦ hg b (h.ground τ hτ b hb)
    rw [hstack]
    exact fun b hb ↦ hg b (h.ground τ htop b hb)
  · exact hback' (fun d t hd ↦ absurd hd (hcoming d t)) h.start
  · refine hback' ?_ fun τ hτ x hx ↦ hkeeps.isSome (h.known τ hτ x hx)
    rw [hstack]
    exact fun x hx ↦ hkeeps.isSome (h.known τ htop x hx)
  · exact hback' (fun d hd ↦ absurd hd (hback d)) fun τ hτ d hd ↦ hkeeps.isSome (h.back τ hτ d hd)
  · exact h.queue
  · intro x hx
    obtain ⟨q, hq, hw, c, hc⟩ := h.lone_of_keeps hkeeps x hx
    exact ⟨q, hq, hw, c, hH hc⟩
  · exact hnodup
  · intro x c hc
    rcases hbegan x c hc with hc | ⟨rfl, hc⟩
    · exact h.began_of_keeps hkeeps x c hc
    · exact ⟨r', hm', by rw [hc, hentries]⟩
  · intro x q hq
    by_cases hx : x = m
    · subst hx
      obtain rfl : r' = q := by simpa [hm'] using hq
      exact hL
    · rw [hspot x hx]
      exact h.lawful x q (by rwa [hne x hx] at hq)
  · intro x q hq hs
    by_cases hx : x = m
    · subst hx
      obtain rfl : r' = q := by simpa [hm'] using hq
      refine (h.counted x r hm (hstatus ▸ hs)).mono (fun e ↦ howes e x) (Nat.le_refl _) ?_
      simp [SourceText.waitsFor, hstatus, hwaits]
    · exact (h.counted x q (by rwa [hne x hx] at hq) hs).mono (fun e ↦ howes e x) (Nat.le_refl _)
        (Nat.le_refl _)

/-! ## Paths -/

theorem path_nodup (h : Sound o T F X G H) : (T.flatMap Tour.path).Nodup := by
  refine List.Sublist.nodup ?_ h.stacked
  have := h.path
  clear h
  induction T with
  | nil => exact .slnil
  | cons τ T ih =>
    rw [List.flatMap_cons, List.flatMap_cons]
    exact (this τ List.mem_cons_self).append (ih fun τ hτ ↦ this τ (List.mem_cons_of_mem _ hτ))

/-- The module on top of the path of a walk is on no path again. -/
theorem not_mem_path (h : Sound o (τ :: T) F X G H) {rest : List ModuleId}
    (hp : τ.path = m :: rest) : m ∉ rest ∧ ∀ τ' ∈ T, m ∉ τ'.path := by
  have := h.path_nodup
  rw [List.flatMap_cons, hp, List.cons_append, List.nodup_cons, List.mem_append, not_or] at this
  exact ⟨this.1.1, fun τ' hτ' hm ↦ this.1.2 (List.mem_flatMap.2 ⟨τ', hτ', hm⟩)⟩

theorem mem_path_of_mem_frames {f : EvaluationFrame} (hf : f ∈ τ.walk.frames) :
    f.module ∈ τ.path :=
  List.mem_append_right _ (List.mem_map_of_mem hf)

/-- Where a module stands with which the walk is through. -/
theorem not_ahead_of_through {f : List EvaluationFrame}
    (h : Sound o (τ :: T) F X G H) (hp : τ.path = m :: f.map (·.module))
    {τ' : Tour} (hst : ∀ x, τ'.stance ≠ .running x) (hf : τ'.walk.frames = f) :
    ¬(spot (τ' :: T) F X H' m).ahead := by
  obtain ⟨hrest, hT⟩ := h.not_mem_path hp
  rintro (⟨τ'', hτ'', hr⟩ | ⟨t, τ'', hτ'', f, hf', hfm, -⟩)
  · rcases List.mem_cons.1 hτ'' with rfl | hτ''
    · exact hst m hr
    · exact hT τ'' hτ'' (List.mem_append_left _ (by simp [hr, Stance.top]))
  · rcases List.mem_cons.1 hτ'' with rfl | hτ''
    · exact hrest (hfm ▸ List.mem_map_of_mem (hf ▸ hf'))
    · exact hT τ'' hτ'' (hfm ▸ mem_path_of_mem_frames hf')

/-- A module that is not where the walk goes on stands where it stood. -/
theorem spot_of_ne {x : ModuleId} {t : Traversal} {rest : List EvaluationFrame}
    (hf : w.frames = ⟨m, t, []⟩ :: rest) (hst : st = .through m ∨ st = .running m) (hx : x ≠ m)
    (hb : ∀ c, .began x c ∈ H' ↔ .began x c ∈ H)
    (he : ∀ c c', .ended x c c' ∈ H' ↔ .ended x c c' ∈ H) :
    spot (⟨goal, st, { w with frames := rest }⟩ :: T) F X H' x =
      spot (⟨goal, .here, w⟩ :: T) F X H x := by
  apply Spot.ext <;> simp only [spot, List.mem_cons, exists_eq_or_imp, hf, hb, he, iff_self]
  · simp [Ne.symm hx]
  · rcases hst with rfl | rfl <;> simp [Ne.symm hx]

/-- What holds of the module on top of the path of a walk. -/
theorem lawful_top {t : Traversal} {rest : List EvaluationFrame} {rs : List Request}
    (h : Sound s.outline (⟨goal, .here, w⟩ :: T) F X G H) (hf : w.frames = ⟨m, t, rs⟩ :: rest) :
    ∃ r, s.source? m = some r ∧ r.status = t.status ∧ r.asyncState ≠ .pending ∧
      (¬∃ c, .began m c ∈ H) ∧
      Lawful (spot (⟨goal, .here, w⟩ :: T) F X H m) r.outline := by
  have htop : (⟨goal, .here, w⟩ : Tour) ∈ (⟨goal, .here, w⟩ :: T : List Tour) :=
    List.mem_cons_self
  have hmem : m ∈ w.stack :=
    h.mem_stack_of_mem_frames htop (by rw [hf]; exact List.mem_cons_self)
  obtain ⟨q, hq⟩ := Option.isSome_iff_exists.1 (h.known _ htop m hmem)
  obtain ⟨r, hr, rfl⟩ := Store.source?_of_outline hq
  have L := h.lawful m _ hq
  obtain ⟨h1, h2, h3⟩ := L.framed t ⟨_, htop, _, hf ▸ List.mem_cons_self, rfl, rfl⟩
  refine ⟨r, hr, ?_, h2, h3, L⟩
  cases t <;> simpa [Traversal.status] using h1

end Sound

/-! ## One module -/

section

variable {p p' : Spot} {r : SourceText}

/-- The module waits, now that the walk is through with it. -/
theorem Lawful.hold (L : Lawful p r.outline) (hs : r.status = .evaluating) (hb : ¬p'.begun)
    (hn : ¬p'.ahead) (hstack : p'.stacked ↔ p.stacked) (hF : p'.free → p.free) :
    Lawful p' ({ r with asyncState := .pending } : SourceText).outline := by
  have hahead : ∀ {P : Prop}, p'.ahead → P := fun h ↦ absurd h hn
  constructor
  · exact hstack.trans L.stacked
  · exact fun t ht ↦ hahead (.inr ⟨t, ht⟩)
  · exact fun hr ↦ hahead (.inl hr)
  · exact fun _ _ ↦ .inl rfl
  · exact fun _ _ ↦ .inl rfl
  · exact L.awaits
  · intro _
    simp [hs, Status.isWaiting, Status.outline]
  · exact fun _ ↦ rfl
  · exact fun h ↦ absurd h hb
  · simp [hs]
  · exact L.error
  · exact fun h ↦ L.free (hF h)
  · exact L.parents

/-- The module has been searched. -/
theorem Lawful.holdSearched (L : Lawful p r.outline) (hs : r.status = .asyncSubgraphsSearching)
    (hb : ¬p'.begun) (hn : ¬p'.ahead) (hstack : p'.stacked ↔ p.stacked) (hF : p'.free → p.free) :
    Lawful p' (if r.pendingAsync = 0 then r else { r with asyncState := .pending }).outline := by
  have hahead : ∀ {P : Prop}, p'.ahead → P := fun h ↦ absurd h hn
  split
  · next h0 =>
    constructor
    · exact hstack.trans L.stacked
    · exact fun t ht ↦ hahead (.inr ⟨t, ht⟩)
    · exact fun hr ↦ hahead (.inl hr)
    · simp [hs]
    · exact fun _ _ ↦ .inr h0
    · exact L.awaits
    · exact L.pending
    · exact L.waiting
    · exact fun h ↦ absurd h hb
    · simp [hs]
    · exact L.error
    · exact fun h ↦ L.free (hF h)
    · exact L.parents
  · constructor
    · exact hstack.trans L.stacked
    · exact fun t ht ↦ hahead (.inr ⟨t, ht⟩)
    · exact fun hr ↦ hahead (.inl hr)
    · exact fun _ _ ↦ .inl rfl
    · exact fun _ _ ↦ .inl rfl
    · exact L.awaits
    · intro _
      simp [hs, Status.isWaiting, Status.outline]
    · exact fun _ ↦ rfl
    · exact fun h ↦ absurd h hb
    · simp [hs]
    · exact L.error
    · exact fun h ↦ L.free (hF h)
    · exact L.parents

/-- The module, which does not await, is being executed. -/
theorem Lawful.run (L : Lawful p r.outline) (hs : r.status = .evaluating)
    (hp : r.asyncState ≠ .pending) (hw : r.entries.awaits = false) (hb : p'.begun)
    (hf : ∀ t, ¬p'.framed t) (hr : p'.running) (hstack : p'.stacked ↔ p.stacked)
    (hF : p'.free → p.free) : Lawful p' r.outline := by
  have hahead : p'.ahead := .inl hr
  constructor
  · exact hstack.trans L.stacked
  · exact fun t ht ↦ absurd ht (hf t)
  · exact fun _ ↦ ⟨by simp [hs], hb⟩
  · exact fun hn ↦ absurd hahead hn
  · exact fun hn ↦ absurd hahead hn
  · exact L.awaits
  · exact L.pending
  · exact L.waiting
  · exact fun _ ↦ .inr (.inr (.inl ⟨hw, by simp [hs], hp⟩))
  · simp [hs]
  · exact L.error
  · exact fun h ↦ L.free (hF h)
  · exact L.parents

/-- The module, which awaits, is being executed. -/
theorem Lawful.runAsync (L : Lawful p r.outline) (hs : r.status = .evaluating)
    (h0 : r.pendingAsync = 0) (hw : r.entries.awaits = true) (hb : p'.begun)
    (hf : ∀ t, ¬p'.framed t) (hr : p'.running) (hstack : p'.stacked ↔ p.stacked)
    (hF : p'.free → p.free) :
    Lawful p' ({ r with asyncState := .pending } : SourceText).outline := by
  have hahead : p'.ahead := .inl hr
  have hfree : ¬p'.free := fun h ↦ by
    have := L.free (hF h)
    simp [hs, hw] at this
  constructor
  · exact hstack.trans L.stacked
  · exact fun t ht ↦ absurd ht (hf t)
  · exact fun _ ↦ ⟨by simp [hs], hb⟩
  · exact fun hn ↦ absurd hahead hn
  · exact fun hn ↦ absurd hahead hn
  · exact L.awaits
  · intro _
    simp [hs, Status.isWaiting, Status.outline]
  · exact fun _ ↦ rfl
  · exact fun _ ↦ .inr (.inl ⟨hw, rfl, .inl (by simp [hs]), h0, hfree⟩)
  · simp [hs]
  · exact L.error
  · exact fun h ↦ absurd h hfree
  · exact L.parents

/-- The body of the module has come back. -/
theorem Lawful.ended (L : Lawful p r.outline) (hs : r.status = .evaluating) (hb : p.begun)
    (hn : ¬p'.ahead) (hstack : p'.stacked ↔ p.stacked) (hF : p'.free ↔ p.free)
    (hX : p.lone → p'.lone) (hb' : p'.begun → p.begun)
    (he : r.entries.awaits = false → p'.ended) : Lawful p' r.outline := by
  have hahead : ∀ {P : Prop}, p'.ahead → P := fun h ↦ absurd h hn
  have hbegun := L.begun hb
  simp only [SourceText.outline_status, hs, Status.outline, SourceText.outline_entries,
    SourceText.outline_asyncState, reduceCtorEq, false_or, false_and, and_false, or_false,
    true_and] at hbegun
  constructor
  · exact hstack.trans L.stacked
  · exact fun t ht ↦ hahead (.inr ⟨t, ht⟩)
  · exact fun hr ↦ hahead (.inl hr)
  · intro _ _
    rcases hbegun with ⟨-, hp, -⟩ | ⟨hw, -⟩
    · exact .inl hp
    · exact .inr ⟨hw, he hw⟩
  · simp [hs]
  · exact L.awaits
  · exact L.pending
  · exact L.waiting
  · intro hb
    rcases L.begun (hb' hb) with h | ⟨h1, h2, h3, h4, h5⟩ | h | ⟨h1, h2, h3⟩
    · exact .inl h
    · exact .inr (.inl ⟨h1, h2, h3, h4, fun h ↦ h5 (hF.1 h)⟩)
    · exact .inr (.inr (.inl h))
    · exact .inr (.inr (.inr ⟨h1, h2, hX h3⟩))
  · simp [hs]
  · exact L.error
  · exact fun h ↦ L.free (hF.1 h)
  · exact L.parents

end

namespace Store

theorem outline_startAsync (s : Store) (m : ModuleId) :
    (s.startAsync m).2.outline = (s.holdModule m).outline := by
  unfold startAsync
  exact outline_congr (modules_react _ _ _)

theorem outline_holdModule {s : Store} {m : ModuleId} {r : SourceText} (h : s.source? m = some r) :
    (s.holdModule m).outline m = some ({ r with asyncState := .pending } : SourceText).outline :=
  outline_modifySource_self h _

end Store

namespace Sound

variable {s : Store} {goal : EvaluationGoal} {w : EvaluationWalk} {T : List Tour}
  {F X G : List ModuleId} {H : List Event} {m : ModuleId} {r : SourceText}
  {rest : List EvaluationFrame}

/-- A module that the walk has executed would be held now. -/
theorem hold (h : Sound s.outline (⟨goal, .here, w⟩ :: T) F X G H)
    (hf : w.frames = ⟨m, .executing, []⟩ :: rest) :
    Sound (s.holdModule m).outline (⟨goal, .through m, { w with frames := rest }⟩ :: T) F X G H := by
  obtain ⟨r, hr, hs, -, hb, L⟩ := h.lawful_top hf
  have hpath : Tour.path ⟨goal, .here, w⟩ = m :: rest.map (·.module) := by
    simp [Tour.path, Stance.top, hf]
  refine h.local_move (by rw [hpath]; rfl) rfl (by simp) (by simp) (Store.outline_eq_some hr)
    (Store.outline_holdModule hr) (fun x hx ↦ Store.outline_modifySource_of_ne s hx _) rfl ?_ rfl
    rfl rfl (fun _ h ↦ h) h.onceBegun (fun x c hc ↦ .inl hc)
    (fun x hx ↦ spot_of_ne hf (.inl rfl) hx (fun _ ↦ Iff.rfl) fun _ _ ↦ Iff.rfl) ?_
  · exact fun h h' ↦ ⟨h, h'⟩
  · refine L.hold hs hb (h.not_ahead_of_through hpath (by simp) rfl) ?_ id
    simp [spot]

/-- The walk has searched a module. -/
theorem search (h : Sound s.outline (⟨goal, .here, w⟩ :: T) F X G H)
    (hf : w.frames = ⟨m, .searching, []⟩ :: rest) :
    Sound (s.holdSearched m).outline
      (⟨goal, .through m, { w with frames := rest }⟩ :: T) F X G H := by
  obtain ⟨r, hr, hs, -, hb, L⟩ := h.lawful_top hf
  have hpath : Tour.path ⟨goal, .here, w⟩ = m :: rest.map (·.module) := by
    simp [Tour.path, Stance.top, hf]
  refine h.local_move (by rw [hpath]; rfl) rfl (by simp) (by simp) (Store.outline_eq_some hr)
    (Store.outline_modifySource_self hr _) (fun x hx ↦ Store.outline_modifySource_of_ne s hx _)
    ?_ ?_ ?_ ?_ ?_ (fun _ h ↦ h) h.onceBegun (fun x c hc ↦ .inl hc)
    (fun x hx ↦ spot_of_ne hf (.inl rfl) hx (fun _ ↦ Iff.rfl) fun _ _ ↦ Iff.rfl) ?_
  · split <;> rfl
  · split <;> exact fun h h' ↦ ⟨h, h'⟩
  · split <;> rfl
  · split <;> rfl
  · split <;> rfl
  · refine L.holdSearched hs hb (h.not_ahead_of_through hpath (by simp) rfl) ?_ id
    simp [spot]

theorem not_framed_of_running (h : Sound s.outline (⟨goal, .here, w⟩ :: T) F X G H)
    (hf : w.frames = ⟨m, .executing, []⟩ :: rest) {H' : List Event} (t : Traversal) :
    ¬(spot (⟨goal, .running m, { w with frames := rest }⟩ :: T) F X H' m).framed t := by
  obtain ⟨hrest, hT⟩ := h.not_mem_path
    (show Tour.path _ = m :: rest.map (·.module) by simp [Tour.path, Stance.top, hf])
  rintro ⟨τ, hτ, f, hf', hfm, -⟩
  rcases List.mem_cons.1 hτ with rfl | hτ
  · exact hrest (hfm ▸ List.mem_map_of_mem hf')
  · exact hT τ hτ (hfm ▸ mem_path_of_mem_frames hf')

theorem mem_begun {x : ModuleId} {H : List Event} : x ∈ begun H ↔ ∃ c, .began x c ∈ H := by
  induction H with
  | nil => simp [begun]
  | cons e H ih =>
    cases e <;> simp [begun, ih, exists_or]

/-- The walk executes a module that does not await. -/
theorem run (h : Sound s.outline (⟨goal, .here, w⟩ :: T) F X G H)
    (hf : w.frames = ⟨m, .executing, []⟩ :: rest) (hr : s.source? m = some r)
    (hw : r.entries.awaits = false) :
    Sound s.outline (⟨goal, .running m, { w with frames := rest }⟩ :: T) F X G
      (.began m none :: H) := by
  obtain ⟨r', hr', hs, hp, hb, L⟩ := h.lawful_top hf
  obtain rfl : r = r' := by simpa [hr] using hr'
  have hpath : Tour.path ⟨goal, .here, w⟩ = m :: rest.map (·.module) := by
    simp [Tour.path, Stance.top, hf]
  refine h.local_move (by rw [hpath]; rfl) rfl (by simp) (by simp) (Store.outline_eq_some hr)
    (Store.outline_eq_some hr) (fun x hx ↦ rfl) rfl (fun h h' ↦ ⟨h, h'⟩) rfl rfl rfl
    (List.subset_cons_self _ _) (List.nodup_cons.2 ⟨fun h ↦ hb (mem_begun.1 h), h.onceBegun⟩)
    (fun x c hc ↦ ?_)
    (fun x hx ↦ spot_of_ne hf (.inr rfl) hx (fun _ ↦ by simp [hx]) fun _ _ ↦ by simp) ?_
  · rcases List.mem_cons.1 hc with hc | hc
    · cases hc
      exact .inr ⟨rfl, by simp [hw]⟩
    · exact .inl hc
  · refine L.run hs hp hw ⟨none, List.mem_cons_self⟩ (h.not_framed_of_running hf)
      ⟨_, List.mem_cons_self, rfl⟩ ?_ id
    simp [spot]

/-- The walk executes a module that awaits. -/
theorem runAsync (h : Sound s.outline (⟨goal, .here, w⟩ :: T) F X G H)
    (hf : w.frames = ⟨m, .executing, []⟩ :: rest) (hr : s.source? m = some r)
    (h0 : r.pendingAsync = 0) (hw : r.entries.awaits = true) (p : PromiseId) :
    Sound (s.startAsync m).2.outline (⟨goal, .running m, { w with frames := rest }⟩ :: T) F X G
      (.began m (some p) :: H) := by
  obtain ⟨r', hr', hs, -, hb, L⟩ := h.lawful_top hf
  obtain rfl : r = r' := by simpa [hr] using hr'
  have hpath : Tour.path ⟨goal, .here, w⟩ = m :: rest.map (·.module) := by
    simp [Tour.path, Stance.top, hf]
  rw [Store.outline_startAsync]
  refine h.local_move (by rw [hpath]; rfl) rfl (by simp) (by simp) (Store.outline_eq_some hr)
    (Store.outline_holdModule hr) (fun x hx ↦ Store.outline_modifySource_of_ne s hx _) rfl
    (fun h h' ↦ ⟨h, h'⟩) rfl rfl rfl
    (List.subset_cons_self _ _) (List.nodup_cons.2 ⟨fun h ↦ hb (mem_begun.1 h), h.onceBegun⟩)
    (fun x c hc ↦ ?_)
    (fun x hx ↦ spot_of_ne hf (.inr rfl) hx (fun _ ↦ by simp [hx]) fun _ _ ↦ by simp) ?_
  · rcases List.mem_cons.1 hc with hc | hc
    · cases hc
      exact .inr ⟨rfl, by simp [hw]⟩
    · exact .inl hc
  · refine L.runAsync hs h0 hw ⟨some p, List.mem_cons_self⟩ (h.not_framed_of_running hf)
      ⟨_, List.mem_cons_self, rfl⟩ ?_ id
    simp [spot]

/-- The body of a module that the walk executed has come back. -/
theorem ended {capability : Option PromiseId} {c : Completion}
    (h : Sound s.outline (⟨goal, .running m, w⟩ :: T) F X G H) (hb : .began m capability ∈ H)
    (hc : c = .ok () ∨ capability.isSome) :
    Sound s.outline (⟨goal, .through m, w⟩ :: T) F X G (.ended m capability c :: H) := by
  obtain ⟨q, hq, hcap⟩ := h.began m capability hb
  obtain ⟨r, hr, rfl⟩ := Store.source?_of_outline hq
  have L := h.lawful m _ hq
  have hs : r.status = .evaluating := by simpa using (L.running ⟨_, List.mem_cons_self, rfl⟩).1
  refine h.local_move rfl rfl (by simp) (by simp) hq hq (fun x hx ↦ rfl) rfl (fun h h' ↦ ⟨h, h'⟩) rfl rfl
    rfl (List.subset_cons_self _ _) (by simpa [begun] using h.onceBegun)
    (fun x c hc ↦ .inl (by simpa using hc)) (fun x hx ↦ ?_) ?_
  · apply Spot.ext <;> simp [spot, hx, Ne.symm hx]
  · refine L.ended hs ⟨_, hb⟩ (h.not_ahead_of_through (f := w.frames) rfl (by simp) rfl) ?_ ?_ ?_
      ?_ ?_
    · simp [spot]
    · simp [spot]
    · simp [spot]
    · simp [spot]
    · intro hw
      refine ⟨capability, ?_⟩
      rcases hc with rfl | hc
      · exact List.mem_cons_self
      · rw [hcap, SourceText.outline_entries, hw] at hc
        contradiction

end Sound
end EcmaModules
