import EcmaModules.Proofs.Sound7

namespace EcmaModules
namespace Sound

variable {s : Store} {o' : Outline} {F X G : List ModuleId} {H : List Event} {m : ModuleId}
  {r : SourceText}

/-- A module that was set free is over already. -/
theorem past (h : Sound s.outline [] (m :: F) [] [] H)
    (hm : s.source? m = none ∨ s.status? m = some .evaluated) :
    Sound s.outline [] F [] [] H where
  stacked := h.stacked
  path := h.path
  rooted := h.rooted
  ground := h.ground
  start := h.start
  known := h.known
  back := h.back
  queue := (List.nodup_cons.1 h.queue).2
  lone := h.lone
  onceBegun := h.onceBegun
  began := h.began
  lawful x r hr := (h.lawful x r hr).mono (fun _ ↦ Iff.rfl) Iff.rfl Iff.rfl
    (fun hx ↦ List.mem_cons_of_mem _ hx) id Iff.rfl id
  counted x r hr hs := by
    refine (h.counted x r hr hs).mono (fun d hd ↦ ?_) (Nat.le_refl _) (Nat.le_refl _)
    obtain ⟨q, hq, hw, hmem, hz⟩ := hd
    refine ⟨q, hq, hw, hmem, hz.imp id fun hz hd ↦ ?_⟩
    rcases List.mem_cons.1 hd with rfl | hd
    · obtain ⟨q', hq', rfl⟩ := Store.source?_of_outline hq
      rcases hm with hm | hm
      · simp [hq'] at hm
      · have : q'.status = .evaluated := by simpa [Store.status?, hq'] using hm
        simp [this, Status.outline, Status.isWaiting] at hw
    · exact hz hd

/-- What is known of the first of the modules that were set free. -/
theorem head (h : Sound s.outline [] (m :: F) [] [] H) (hm : s.source? m = some r)
    (hs : r.status ≠ .evaluated) : (r.status = .evaluatingAsync ∧
      (r.entries.awaits = true → r.pendingAsync = 0) ∨
      r.status = .asyncSubgraphsSearchingAsync ∧ r.pendingAsync = 0) ∧
      (¬∃ c, .began m c ∈ H) ∧ Unwalked (spot [] (m :: F) [] H m) r.outline := by
  have hmo := Store.outline_eq_some hm
  obtain ⟨-, U⟩ := h.unwalked hmo
  refine ⟨?_, fun hb ↦ ?_, U⟩
  · have := U.free List.mem_cons_self
    simp only [SourceText.outline_status, Status.outline_eq_evaluated, hs, false_or,
      Status.outline_eq_evaluatingAsync, Status.outline_eq_searchingAsync] at this
    exact this
  · rcases U.begun hb with he | ⟨-, -, -, hf⟩ | ⟨-, -, hl⟩
    · exact hs (by simpa using he)
    · exact hf List.mem_cons_self
    · exact absurd hl List.not_mem_nil

/-- A module that was set free was only searched. -/
theorem pastSearched (h : Sound s.outline [] (m :: F) [] [] H) (hm : s.source? m = some r)
    (hw : r.entries.awaits = false) (hs : r.status = .asyncSubgraphsSearchingAsync) :
    Sound (s.finishSearched m).outline [] F [] [] H := by
  have hmo := Store.outline_eq_some hm
  obtain ⟨hhead, hnot, U⟩ := h.head hm (by simp [hs])
  have h0 : r.pendingAsync = 0 := by simpa [hs] using hhead
  obtain ⟨hnodup, hF⟩ := List.nodup_cons.1 h.queue
  have hne := fun x (hx : x ≠ m) ↦ Store.outline_finishSearched_of_ne s hx
  have hself := Store.outline_finishSearched_self hm
  have hZ : ∀ x, x ≠ m → x ∈ m :: F ++ [] → x ∈ F ++ [] := fun x hx h ↦ by
    simpa [hx] using h
  refine h.local_nil hmo hself hne rfl hF nofun (fun _ h ↦ h) h.onceBegun
    (fun _ _ hc ↦ .inl hc) (fun x hx ↦ by simp [hx]) (fun _ _ ↦ Iff.rfl) (fun _ _ _ ↦ Iff.rfl) rfl
    ?_ (fun _ ↦ ?_) fun x p hx hp hps hcount ↦ ?_
  · refine ⟨fun ha ↦ ?_, nofun, fun h ↦ ?_, fun h ↦ absurd h hnot, nofun, fun _ ↦ U.error ?_,
      fun h ↦ absurd h hnodup, U.parents⟩
    · change r.entries.awaits = true at ha
      rw [hw] at ha
      exact nomatch ha
    · rcases h with h | h <;> exact nomatch h
    · simp [hs]
  · refine (h.counted m _ hmo (by simp [hs])).mono (fun d hd ↦ ?_) (Nat.le_refl _) ?_
    · by_cases hdm : d = m
      · subst hdm
        exact absurd hd (not_owes_self hself rfl)
      · exact owes_of_ne hne hZ hdm hd
    · simp [SourceText.waitsFor, h0]
  · exact counted_of_ne hcount hne hZ (fun h ↦ absurd h (not_owes_self hself rfl)) (Nat.le_refl _)

/-- A module that was set free and does not await is executed. -/
theorem free (h : Sound s.outline [] (m :: F) [] [] H) (hm : s.source? m = some r)
    (hs : r.status ≠ .evaluated) (hw : r.entries.awaits = false)
    (hs' : r.status ≠ .asyncSubgraphsSearchingAsync) :
    Sound s.outline [] F [m] [] (.began m none :: H) := by
  have hmo := Store.outline_eq_some hm
  obtain ⟨hhead, hnot, U⟩ := h.head hm hs
  have hstatus : r.status = .evaluatingAsync := (hhead.resolve_right fun h ↦ hs' h.1).1
  obtain ⟨hnodup, hF⟩ := List.nodup_cons.1 h.queue
  have hZ : ∀ x, x ∈ m :: F ++ [] → x ∈ F ++ [m] := fun x h ↦ by
    simp only [List.append_nil, List.mem_cons, List.mem_append, List.not_mem_nil, or_false] at h ⊢
    exact h.symm
  have howes : ∀ d x, Owes s.outline (F ++ [m]) d x → Owes s.outline (m :: F ++ []) d x := by
    rintro d x ⟨q, hq, hw, hmem, hz⟩
    exact ⟨q, hq, hw, hmem, hz.imp id fun hz hd ↦ hz (hZ d hd)⟩
  refine h.local_nil hmo hmo (fun _ _ ↦ rfl) rfl hF (fun x hx ↦ .inr ?_)
    (List.subset_cons_self _ _) (List.nodup_cons.2 ⟨fun h ↦ hnot (mem_begun.1 h), h.onceBegun⟩)
    (fun x c hc ↦ ?_) (fun x hx ↦ by simp [hx]) (fun x hx ↦ by simp [hx]) (fun _ _ _ ↦ by simp)
    (by simpa using (h.unwalked hmo).1) ?_ (fun hps ↦ ?_) fun x p hx hp hps hcount ↦ ?_
  · exact ⟨List.mem_singleton.1 hx, hw, none, List.mem_cons_self⟩
  · rcases List.mem_cons.1 hc with hc | hc
    · cases hc
      exact .inr ⟨rfl, by simp [hw]⟩
    · exact .inl hc
  · refine ⟨U.awaits, U.pending, U.waiting, fun _ ↦ .inr (.inr ⟨hw, ?_, List.mem_singleton.2 rfl⟩),
      fun he ↦ ?_, U.error, fun h ↦ absurd h hnodup, U.parents⟩
    · simp [hstatus]
    · simp [hstatus, Status.outline] at he
  · exact (h.counted m _ hmo hps).mono (fun d ↦ howes d m) (Nat.le_refl _) (Nat.le_refl _)
  · exact hcount.mono (fun d ↦ howes d x) (Nat.le_refl _) (Nat.le_refl _)

/-- A module that was set free and awaits is executed. -/
theorem freeAsync (h : Sound s.outline [] (m :: F) [] [] H) (hm : s.source? m = some r)
    (hs : r.status ≠ .evaluated) (hw : r.entries.awaits = true) (p : PromiseId) :
    Sound (s.startAsync m).2.outline [] F [] [] (.began m (some p) :: H) := by
  have hmo := Store.outline_eq_some hm
  obtain ⟨hhead, hnot, U⟩ := h.head hm hs
  have hstatus : r.status = .evaluatingAsync ∧ r.pendingAsync = 0 := by
    rcases hhead with ⟨hs, h0⟩ | ⟨hs, -⟩
    · exact ⟨hs, h0 hw⟩
    · have := (U.awaits (by simpa using hw)).1
      simp [hs] at this
  obtain ⟨hnodup, hF⟩ := List.nodup_cons.1 h.queue
  rw [Store.outline_startAsync]
  have hne := fun x (hx : x ≠ m) ↦ Store.outline_modifySource_of_ne s hx
    fun r ↦ { r with asyncState := .pending }
  have hself := Store.outline_holdModule hm
  have hZ : ∀ x, x ≠ m → x ∈ m :: F ++ [] → x ∈ F ++ [] := fun x hx h ↦ by
    simpa [hx] using h
  have howes : ∀ x, Owes (s.holdModule m).outline (F ++ []) m x →
      Owes s.outline (m :: F ++ []) m x := by
    rintro x ⟨q, hq, hw', hmem, -⟩
    obtain rfl : _ = q := Option.some.inj (hself.symm.trans hq)
    exact ⟨_, hmo, hw', hmem, .inl hw⟩
  refine h.local_nil hmo hself hne rfl hF nofun
    (List.subset_cons_self _ _) (List.nodup_cons.2 ⟨fun h ↦ hnot (mem_begun.1 h), h.onceBegun⟩)
    (fun x c hc ↦ ?_) (fun x hx ↦ by simp [hx]) (fun x hx ↦ Iff.rfl) (fun _ _ _ ↦ by simp)
    (by simpa using (h.unwalked hmo).1) ?_ (fun hps ↦ ?_) fun x p hx hp hps hcount ↦ ?_
  · rcases List.mem_cons.1 hc with hc | hc
    · cases hc
      exact .inr ⟨rfl, by simp [hw]⟩
    · exact .inl hc
  · refine ⟨U.awaits, fun _ ↦ ?_, fun _ ↦ rfl, fun _ ↦ .inr (.inl ⟨hw, ?_, hstatus.2, hnodup⟩),
      fun he ↦ ?_, U.error, fun h ↦ absurd h hnodup, U.parents⟩
    · simp [hstatus.1, Status.outline, Status.isWaiting]
    · simp [hstatus.1]
    · simp [hstatus.1, Status.outline] at he
  · refine (h.counted m _ hmo hps).mono (fun d hd ↦ ?_) (Nat.le_refl _) (Nat.le_refl _)
    by_cases hdm : d = m
    · subst hdm
      exact howes d hd
    · exact owes_of_ne hne hZ hdm hd
  · exact counted_of_ne hcount hne hZ (howes x) (Nat.le_refl _)

/-- A module that was set free and does not await has been executed. -/
theorem freed (h : Sound s.outline [] F [m] [] H) :
    Sound (s.finishModule m).outline [] F [] [] (.ended m none (.ok ()) :: H) := by
  obtain ⟨q, hmo, hw, c, hb⟩ := h.lone m (List.mem_singleton.2 rfl)
  obtain ⟨r, hm, rfl⟩ := Store.source?_of_outline hmo
  obtain ⟨-, U⟩ := h.unwalked hmo
  have hne := fun x (hx : x ≠ m) ↦ Store.outline_finishModule_of_ne s hx
  have hself := Store.outline_finishModule_self hm
  have hZ : ∀ x, x ≠ m → x ∈ F ++ [m] → x ∈ F ++ [] := fun x hx h ↦ by
    simpa [hx] using h
  refine h.local_nil hmo hself hne rfl h.queue nofun (List.subset_cons_self _ _)
    (by simpa [begun] using h.onceBegun) (fun x c hc ↦ .inl (by simpa using hc))
    (fun _ _ ↦ Iff.rfl) (fun x hx ↦ by simp [hx]) (fun x c hx ↦ by simp [hx]) rfl
    (finished_unwalked U fun _ ↦ ⟨none, List.mem_cons_self⟩) (fun h ↦ absurd rfl h)
    fun x p hx hp hps hcount ↦ ?_
  exact counted_of_ne hcount hne hZ (fun h ↦ absurd h (not_owes_self hself rfl)) (Nat.le_refl _)

/-- Modules fail while there is no walk. -/
theorem reject {X' : List ModuleId} {e : ErrorId} (h : Sound s.outline [] F X [] H)
    (ho : ∀ x, o' x = s.outline x ∨ ∃ r, s.source? x = some r ∧ o' x = some ({ r with
      evaluationError := some e, asyncState := .settled, status := .evaluated } :
        SourceText).outline)
    (hX : ∀ x ∈ X', x ∈ X)
    (hX' : ∀ x ∈ X, x ∈ X' ∨ ∃ r, o' x = some r ∧ r.status = .evaluated) :
    Sound o' [] F X' [] H := by
  have hback : ∀ x p, o' x = some p → p.status ≠ .evaluated → s.outline x = some p := by
    intro x p hp hs
    rcases ho x with hx | ⟨r, -, hx⟩
    · rwa [hx] at hp
    · obtain rfl : _ = p := Option.some.inj (hx.symm.trans hp)
      exact absurd rfl hs
  have hkeeps : Keeps s.outline o' := fun x p hp ↦ by
    rcases ho x with hx | ⟨r, hr, hx⟩
    · exact ⟨p, hx.trans hp, rfl⟩
    · obtain rfl : _ = p := Option.some.inj ((Store.outline_eq_some hr).symm.trans hp)
      exact ⟨_, hx, rfl⟩
  constructor
  · exact List.nodup_nil
  · exact nofun
  · exact nofun
  · exact nofun
  · exact nofun
  · exact nofun
  · exact nofun
  · exact h.queue
  · exact fun x hx ↦ h.lone_of_keeps hkeeps x (hX x hx)
  · exact h.onceBegun
  · exact h.began_of_keeps hkeeps
  · intro x p hp
    rcases ho x with hx | ⟨r, hr, hx⟩
    · rw [hx] at hp
      obtain ⟨hw, U⟩ := h.unwalked hp
      refine lawful_nil ⟨U.awaits, U.pending, U.waiting, fun hb ↦ ?_, U.evaluated, U.error,
        U.free, U.parents⟩ hw
      rcases U.begun hb with hb | hb | ⟨h1, h2, h3⟩
      · exact .inl hb
      · exact .inr (.inl hb)
      · refine .inr (.inr ⟨h1, h2, (hX' x h3).resolve_right ?_⟩)
        rintro ⟨r, hr, hs⟩
        obtain rfl : p = r := by simpa [hx, hp] using hr
        simp [hs] at h2
    · obtain rfl : _ = p := Option.some.inj (hx.symm.trans hp)
      obtain ⟨-, U⟩ := h.unwalked (Store.outline_eq_some hr)
      refine lawful_nil ⟨fun _ ↦ ⟨nofun, nofun⟩, nofun, fun h ↦ ?_, fun _ ↦ .inl rfl, nofun,
        fun h ↦ absurd rfl h, fun _ ↦ .inl rfl, U.parents⟩ rfl
      rcases h with h | h <;> exact nomatch h
  · intro x p hp hs
    refine (h.counted x p (hback x p hp hs) hs).mono (fun d hd ↦ ?_) (Nat.le_refl _)
      (Nat.le_refl _)
    obtain ⟨q, hq, hw, hmem, hz⟩ := hd
    have hqs : q.status ≠ .evaluated := by
      intro he
      simp [he, Status.isWaiting] at hw
    refine ⟨q, hback d q hq hqs, hw, hmem, hz.imp id fun hz hd ↦ ?_⟩
    rcases List.mem_append.1 hd with hd | hd
    · exact hz (List.mem_append_left _ hd)
    · rcases hX' d hd with hd | ⟨r, hr, hs⟩
      · exact hz (List.mem_append_right _ hd)
      · obtain rfl : q = r := by simpa [hq] using hr
        exact hqs hs

end Sound
end EcmaModules
