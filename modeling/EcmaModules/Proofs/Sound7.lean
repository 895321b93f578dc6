import EcmaModules.Proofs.Sound6

namespace EcmaModules

namespace Store

theorem modules_resolveCapability (s : Store) (m : ModuleId) :
    (s.resolveCapability m).modules = s.modules := by
  unfold resolveCapability
  split
  · exact modules_settle _ _ _
  · rfl

theorem modules_rejectCapability (s : Store) (m : ModuleId) (e : ErrorId) :
    (s.rejectCapability m e).modules = s.modules := by
  unfold rejectCapability
  split
  · exact modules_settle _ _ _
  · rfl

theorem outline_finishModule_self {s : Store} {m : ModuleId} {r : SourceText}
    (h : s.source? m = some r) : (s.finishModule m).outline m =
      some ({ r with asyncState := .settled, status := .evaluated } : SourceText).outline := by
  unfold finishModule
  rw [outline_congr (modules_resolveCapability _ _)]
  refine outline_modifySource_self (r := { r with asyncState := .settled }) ?_ _
  rw [settleAsync, source?_modifySource, if_pos rfl, h]
  rfl

theorem outline_finishModule_of_ne (s : Store) {m x : ModuleId} (hx : x ≠ m) :
    (s.finishModule m).outline x = s.outline x := by
  unfold finishModule
  rw [outline_congr (modules_resolveCapability _ _), setStatus, outline_modifySource_of_ne _ hx,
    settleAsync, outline_modifySource_of_ne _ hx]

theorem outline_finishSearched_self {s : Store} {m : ModuleId} {r : SourceText}
    (h : s.source? m = some r) : (s.finishSearched m).outline m =
      some ({ r with status := .asyncSubgraphsEvaluated, asyncState := .settled } :
        SourceText).outline := by
  unfold finishSearched
  rw [outline_congr (modules_resolveCapability _ _)]
  refine outline_modifySource_self (r := { r with status := .asyncSubgraphsEvaluated }) ?_ _
  rw [setStatus, source?_modifySource, if_pos rfl, h]
  rfl

theorem outline_finishSearched_of_ne (s : Store) {m x : ModuleId} (hx : x ≠ m) :
    (s.finishSearched m).outline x = s.outline x := by
  unfold finishSearched
  rw [outline_congr (modules_resolveCapability _ _), settleAsync, outline_modifySource_of_ne _ hx,
    setStatus, outline_modifySource_of_ne _ hx]

end Store

namespace Sound

variable {s : Store} {F X G : List ModuleId} {H : List Event} {m : ModuleId} {r : SourceText}

theorem finished_unwalked {p p' : Spot} (h : Unwalked p r.outline)
    (he : r.entries.awaits = false → p'.ended) :
    Unwalked p' ({ r with asyncState := .settled, status := .evaluated } : SourceText).outline := by
  refine ⟨fun _ ↦ ⟨nofun, nofun⟩, nofun, fun h ↦ ?_, fun _ ↦ .inl rfl, fun _ _ hw ↦ he hw,
    fun h ↦ absurd rfl h, fun _ ↦ .inl rfl, h.parents⟩
  rcases h with h | h <;> exact nomatch h

/-- A module that awaits has finished, and those that wait for it are due. -/
theorem fulfill {c : Option PromiseId} (h : Sound s.outline [] [] [] [] H)
    (hm : s.source? m = some r) (hs : r.status ≠ .evaluated) (hb : .began m c ∈ H)
    (hc : c.isSome) : Sound (s.finishModule m).outline [] [] [] r.asyncParents H := by
  have hmo := Store.outline_eq_some hm
  obtain ⟨-, U⟩ := h.unwalked hmo
  obtain ⟨q, hq, hawait⟩ := h.began m c hb
  obtain rfl : r.outline = q := by simpa [hmo] using hq
  rw [hc, SourceText.outline_entries] at hawait
  have hne := fun x (hx : x ≠ m) ↦ Store.outline_finishModule_of_ne s hx
  have hself := Store.outline_finishModule_self hm
  have hstatus : r.status = .evaluatingAsync := by
    have hr := U.begun ⟨c, hb⟩
    simp only [SourceText.outline_status, Status.outline_eq_evaluated,
      Status.outline_eq_evaluatingAsync, SourceText.outline_entries, ← hawait] at hr
    simpa [hs] using (hr.resolve_left hs).elim (fun h ↦ h.2.1) fun h ↦ absurd h.1 (by simp)
  refine h.local_nil hmo hself hne rfl List.nodup_nil (by simp) (fun _ h ↦ h) h.onceBegun
    (fun _ _ hc ↦ .inl hc) (fun _ _ ↦ Iff.rfl) (fun _ _ ↦ Iff.rfl) (fun _ _ _ ↦ Iff.rfl) rfl
    (finished_unwalked U fun hw ↦ by rw [← hawait] at hw; contradiction) (fun h ↦ absurd rfl h) ?_
  intro x p hx hp hps hcount
  rw [← List.append_nil r.asyncParents]
  refine counted_of_pay hcount hne (fun _ _ h ↦ h) (not_owes_self hself rfl) U.parents fun hmem ↦ ?_
  refine ⟨_, hmo, ?_, hmem, .inl hawait.symm⟩
  rw [SourceText.outline_status, hstatus]
  rfl

/-- One of the modules that are due need not be told. -/
theorem skip (h : Sound s.outline [] F [] (m :: G) H) : Sound s.outline [] F [] G H where
  stacked := h.stacked
  path := h.path
  rooted := h.rooted
  ground := h.ground
  start := h.start
  known := h.known
  back := h.back
  queue := h.queue
  lone := h.lone
  onceBegun := h.onceBegun
  began := h.began
  lawful := h.lawful
  counted x r hr hs := (h.counted x r hr hs).mono (fun _ ↦ id)
    (by simp [List.count_cons]) (Nat.le_refl _)

/-- What is known of a module that is due and goes on to wait. -/
theorem due (h : Sound s.outline [] F [] (m :: G) H) (hm : s.source? m = some r)
    (hs : r.status ≠ .evaluated) : 0 < r.pendingAsync ∧ r.status.isWaiting = true ∧
      (¬∃ c, .began m c ∈ H) ∧ Unwalked (spot [] F [] H m) r.outline := by
  have hmo := Store.outline_eq_some hm
  obtain ⟨-, U⟩ := h.unwalked hmo
  obtain ⟨l, -, hle⟩ := h.counted m _ hmo (by simpa using hs)
  rw [List.count_cons_self] at hle
  have hpos : 0 < r.outline.waitsFor := by omega
  simp only [SourceText.waitsFor, SourceText.outline_status, Status.isWaiting_outline,
    SourceText.outline_pendingAsync] at hpos
  split at hpos
  · next hw =>
    refine ⟨hpos, hw, fun hb ↦ ?_, U⟩
    rcases U.begun hb with he | ⟨-, -, h0, -⟩ | ⟨-, -, hl⟩
    · exact hs (by simpa using he)
    · simp only [SourceText.outline_pendingAsync] at h0
      omega
    · exact absurd hl List.not_mem_nil
  · omega

theorem lessened_unwalked {p : Spot} (h : Unwalked p r.outline) (hb : ¬p.begun) (hF : ¬p.free) :
    Unwalked p ({ r with pendingAsync := r.pendingAsync - 1 } : SourceText).outline :=
  ⟨h.awaits, h.pending, h.waiting, fun h ↦ absurd h hb, h.evaluated, h.error,
    fun h ↦ absurd h hF, h.parents⟩

theorem isBeyondWaiting_eq_false (h : s.isBeyondWaiting m = false) (hm : s.source? m = some r) :
    r.status ≠ .evaluated := by
  intro he
  simp [Store.isBeyondWaiting, Store.status?, hm, he] at h

/-- A module that is due waits for one module less. -/
theorem lessen (h : Sound s.outline [] F [] (m :: G) H) (hF : m ∉ F)
    (hb : s.isBeyondWaiting m = false) (hm : s.source? m = some r) :
    Sound (s.lessen m).outline [] F [] G H := by
  have hs := isBeyondWaiting_eq_false hb hm
  obtain ⟨hpos, hw, hnot, U⟩ := h.due hm hs
  have hmo := Store.outline_eq_some hm
  have hne := fun x (hx : x ≠ m) ↦ Store.outline_modifySource_of_ne s hx
    fun r ↦ { r with pendingAsync := r.pendingAsync - 1 }
  have hself := Store.outline_modifySource_self hm
    fun r ↦ { r with pendingAsync := r.pendingAsync - 1 }
  have howes : ∀ x, Owes (s.lessen m).outline (F ++ []) m x → Owes s.outline (F ++ []) m x := by
    rintro x ⟨q, hq, hw, hmem, hz⟩
    obtain rfl : _ = q := Option.some.inj (hself.symm.trans hq)
    exact ⟨_, hmo, hw, hmem, hz⟩
  refine h.local_nil hmo hself hne rfl h.queue (fun _ h ↦ .inl h) (fun _ h ↦ h) h.onceBegun
    (fun _ _ hc ↦ .inl hc) (fun _ _ ↦ Iff.rfl) (fun _ _ ↦ Iff.rfl) (fun _ _ _ ↦ Iff.rfl) ?_
    (lessened_unwalked U hnot hF) (fun _ ↦ ?_) fun x p hx hp hps hcount ↦ ?_
  · simpa using (h.unwalked hmo).1
  · obtain ⟨l, hl, hle⟩ := h.counted m _ hmo (by simpa using hs)
    refine ⟨l, fun d hd ↦ hl d ?_, ?_⟩
    · by_cases hdm : d = m
      · subst hdm
        exact howes d hd
      · exact owes_of_ne hne (fun _ _ h ↦ h) hdm hd
    · rw [List.count_cons_self] at hle
      simp only [SourceText.waitsFor, SourceText.outline_status, Status.isWaiting_outline, hw,
        if_true, SourceText.outline_pendingAsync] at hle ⊢
      omega
  · exact counted_of_ne hcount hne (fun _ _ h ↦ h) (howes x) (by simp [List.count_cons])

/-- A module that is due waits for nothing any more. -/
theorem release (h : Sound s.outline [] F [] (m :: G) H) (hF : m ∉ F)
    (hb : s.isBeyondWaiting m = false) (hm : s.source? m = some r) (h0 : r.pendingAsync - 1 = 0) :
    Sound (s.lessen m).outline [] (F ++ [m]) []
      ((if r.entries.awaits then [] else r.asyncParents) ++ G) H := by
  have hs := isBeyondWaiting_eq_false hb hm
  obtain ⟨hpos, hw, hnot, U⟩ := h.due hm hs
  have hmo := Store.outline_eq_some hm
  have hne := fun x (hx : x ≠ m) ↦ Store.outline_modifySource_of_ne s hx
    fun r ↦ { r with pendingAsync := r.pendingAsync - 1 }
  have hself := Store.outline_modifySource_self hm
    fun r ↦ { r with pendingAsync := r.pendingAsync - 1 }
  have hwalked := (h.unwalked hmo).1
  have hF' : (F ++ [m]).Nodup := by
    refine List.nodup_append.2 ⟨h.queue, by simp, ?_⟩
    rintro a ha b hb rfl
    exact hF (List.mem_singleton.1 hb ▸ ha)
  have hZ : ∀ x, x ≠ m → x ∈ F ++ [] → x ∈ F ++ [m] ++ [] := fun x _ hx ↦ by
    simp only [List.append_nil] at hx ⊢
    exact List.mem_append_left _ hx
  have hstatus : r.status = .evaluatingAsync ∨ r.status = .asyncSubgraphsSearchingAsync := by
    simp only [SourceText.outline_status, Status.isWalked_outline] at hwalked
    cases hr : r.status <;> simp [hr, Status.isWalked, Status.isWaiting] at hw hwalked ⊢
  -- what the module owes to others is due with it, if it does not await
  have hpay : ∀ x n, Counted s.outline (F ++ []) G x n → Counted (s.lessen m).outline
      (F ++ [m] ++ []) ((if r.entries.awaits then [] else r.asyncParents) ++ G) x n := by
    intro x n hcount
    split
    · next hawait =>
      refine counted_of_ne hcount hne hZ ?_ (Nat.le_refl _)
      rintro ⟨q, hq, hw, hmem, -⟩
      obtain rfl : _ = q := Option.some.inj (hself.symm.trans hq)
      exact ⟨_, hmo, hw, hmem, .inl hawait⟩
    · next hawait =>
      refine counted_of_pay hcount hne hZ ?_ U.parents fun hmem ↦
        ⟨_, hmo, by simpa using hw, hmem, .inr (by simpa using hF)⟩
      rintro ⟨q, hq, -, -, hz⟩
      obtain rfl : _ = q := Option.some.inj (hself.symm.trans hq)
      rcases hz with hz | hz
      · exact hawait hz
      · exact hz (by simp)
  refine h.local_nil hmo hself hne rfl hF' (fun _ h ↦ .inl h) (fun _ h ↦ h) h.onceBegun
    (fun _ _ hc ↦ .inl hc) (fun x hx ↦ ?_) (fun _ _ ↦ Iff.rfl) (fun _ _ _ ↦ Iff.rfl) ?_ ?_
    (fun _ ↦ ?_) fun x p hx hp hps hcount ↦ ?_
  · simp [hx]
  · simpa using hwalked
  · refine ⟨U.awaits, U.pending, U.waiting, fun h ↦ absurd h hnot, U.evaluated, U.error, fun _ ↦ ?_,
      U.parents⟩
    simp only [SourceText.outline_status, Status.outline_eq_evaluated,
      Status.outline_eq_evaluatingAsync, Status.outline_eq_searchingAsync,
      SourceText.outline_pendingAsync, h0, implies_true, and_true]
    exact .inr hstatus
  · have hcount := h.counted m _ hmo (by simpa using hs)
    obtain ⟨l, hl, hle⟩ := hcount
    have hle' : l.length + G.count m ≤ 0 := by
      rw [List.count_cons_self] at hle
      simp only [SourceText.waitsFor, SourceText.outline_status, Status.isWaiting_outline, hw,
        if_true, SourceText.outline_pendingAsync] at hle
      omega
    have := hpay m 0 ⟨l, hl, hle'⟩
    refine this.mono (fun _ ↦ id) (Nat.le_refl _) (Nat.zero_le _)
  · refine hpay x _ (hcount.mono (fun _ ↦ id) ?_ (Nat.le_refl _))
    simp [List.count_cons]

end Sound
end EcmaModules
