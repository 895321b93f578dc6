import EcmaModules.Proofs.Sound9
import EcmaModules.Proofs.Ledger

/-!
# The invariant of a scene

Where modules stand, the tokens of those that await, and what is known of a module that has been
evaluated without an error. Every move keeps it.
-/

namespace EcmaModules

/-- What is over stays so, and no module that awaits is over without an error that was not so
before. -/
structure Lasting (o o' : Outline) : Prop where
  past : ∀ x r, o x = some r → r.status = .evaluated → ∃ r', o' x = some r' ∧ r'.status = .evaluated
  clean : ∀ x r', o' x = some r' → r'.status = .evaluated → r'.evaluationError = none →
    r'.entries.awaits = true →
    ∃ r, o x = some r ∧ r.status = .evaluated ∧ r.evaluationError = none ∧
      r.entries.awaits = true

namespace Lasting

variable {o o' : Outline} {m : ModuleId} {r r' : SourceText}

theorem refl (o : Outline) : Lasting o o :=
  ⟨fun _ r hr hs ↦ ⟨r, hr, hs⟩, fun _ r hr hs he hw ↦ ⟨r, hr, hs, he, hw⟩⟩

/-- A change of a single module. -/
theorem single (hm : o m = some r) (hm' : o' m = some r') (hne : ∀ x, x ≠ m → o' x = o x)
    (hs : r.status = .evaluated → r'.status = .evaluated)
    (hs' : r'.status = .evaluated → r'.evaluationError = none → r'.entries.awaits = true →
      r.status = .evaluated ∧ r.evaluationError = none ∧ r.entries.awaits = true) :
    Lasting o o' := by
  refine ⟨fun x q hq h ↦ ?_, fun x q hq h he hw ↦ ?_⟩
  · by_cases hx : x = m
    · subst hx
      obtain rfl : r = q := by simpa [hm] using hq
      exact ⟨r', hm', hs h⟩
    · exact ⟨q, by rwa [hne x hx], h⟩
  · by_cases hx : x = m
    · subst hx
      obtain rfl : r' = q := by simpa [hm'] using hq
      exact ⟨r, hm, hs' h he hw⟩
    · exact ⟨q, by rwa [hne x hx] at hq, h, he, hw⟩

/-- A change of a field that is not about the end of evaluation. -/
theorem modifySource (s : Store) (m : ModuleId) {f : SourceText → SourceText}
    (hf : ∀ r, (f r).entries = r.entries ∧ (f r).status = r.status ∧
      (f r).evaluationError = r.evaluationError) : Lasting s.outline (s.modifySource m f).outline := by
  rcases hm : s.source? m with _ | r
  · have : (s.modifySource m f).outline = s.outline :=
      Store.outline_modifySource_of_outline fun r hr ↦ by simp [hm] at hr
    rw [this]
    exact refl _
  · obtain ⟨h1, h2, h3⟩ := hf r
    refine single (Store.outline_eq_some hm) (Store.outline_modifySource_self hm f)
      (fun x hx ↦ Store.outline_modifySource_of_ne s hx f) ?_ ?_ <;>
      simp only [SourceText.outline_status, SourceText.outline_entries,
        SourceText.outline_evaluationError, h1, h2, h3]
    · exact id
    · exact fun h he hw ↦ ⟨h, he, hw⟩

theorem trans {o'' : Outline} (h : Lasting o o') (h' : Lasting o' o'') : Lasting o o'' := by
  refine ⟨fun x r hr hs ↦ ?_, fun x r hr hs he hw ↦ ?_⟩
  · obtain ⟨r', hr', hs'⟩ := h.past x r hr hs
    exact h'.past x r' hr' hs'
  · obtain ⟨r', hr', hs', he', hw'⟩ := h'.clean x r hr hs he hw
    exact h.clean x r' hr' hs' he' hw'

theorem await (s : Store) (m d : ModuleId) :
    Lasting s.outline (EvaluationWalk.await s m d).outline := by
  rcases EvaluationWalk.await_cases s m d with h | ⟨_, _, _, _, _, _, h⟩
  · rw [h]
    exact refl _
  · rw [h]
    refine (modifySource s m ?_).trans (modifySource _ d ?_)
    all_goals exact fun _ ↦ ⟨rfl, rfl, rfl⟩

theorem detach (s : Store) (w : EvaluationWalk) (m : ModuleId) :
    Lasting s.outline (EvaluationWalk.detach s w m).outline := by
  unfold EvaluationWalk.detach
  split
  · exact modifySource s m fun _ ↦ ⟨rfl, rfl, rfl⟩
  · exact refl _

/-- Modules that have failed. -/
theorem of_failed (gone : ModuleId → Prop) (hoff : ∀ x, ¬gone x → o' x = o x)
    (hon : ∀ x r', gone x → o' x = some r' → r'.status = .evaluated ∧ r'.evaluationError.isSome)
    (hsome : ∀ x, (o x).isSome → (o' x).isSome) : Lasting o o' := by
  refine ⟨fun x r hr hs ↦ ?_, fun x r hr hs he hw ↦ ?_⟩
  · by_cases hx : gone x
    · obtain ⟨r', hr'⟩ := Option.isSome_iff_exists.1 (hsome x (by simp [hr]))
      exact ⟨r', hr', (hon x r' hx hr').1⟩
    · exact ⟨r, by rw [hoff x hx, hr], hs⟩
  · by_cases hx : gone x
    · have := (hon x r hx hr).2
      simp [he] at this
    · exact ⟨r, by rw [← hoff x hx, hr], hs, he, hw⟩

theorem failModules (s : Store) {stack : List ModuleId} (h : stack.Nodup) (e : ErrorId) :
    Lasting s.outline (s.failModules stack e).outline := by
  have hin : ∀ x r, x ∈ stack → s.source? x = some r →
      (s.failModules stack e).outline x = some (r.fail e).outline := fun x r ↦
    Store.outline_foldl_modifySource_of_mem (SourceText.fail e) h
  have hoff : ∀ x, x ∉ stack → (s.failModules stack e).outline x = s.outline x := fun x ↦
    Store.outline_foldl_modifySource_of_not_mem (SourceText.fail e) h s
  have hsource : ∀ x, (s.outline x).isSome → ∃ r, s.source? x = some r := fun x hx ↦ by
    obtain ⟨q, hq⟩ := Option.isSome_iff_exists.1 hx
    obtain ⟨r, hr, -⟩ := Store.source?_of_outline hq
    exact ⟨r, hr⟩
  refine of_failed (· ∈ stack) hoff (fun x r' hx hr' ↦ ?_) fun x hx ↦ ?_
  · rcases hs : s.source? x with _ | r
    · have : (s.failModules stack e).source? x = none := by
        refine (Store.source?_foldl_modifySource (SourceText.fail e) h s x).trans ?_
        simp [hs]
      simp [Store.outline, this] at hr'
    · obtain rfl : _ = r' := Option.some.inj ((hin x r hx hs).symm.trans hr')
      exact ⟨rfl, rfl⟩
  · obtain ⟨r, hr⟩ := hsource x hx
    by_cases hxs : x ∈ stack
    · simp [hin x r hxs hr]
    · rwa [hoff x hxs]

theorem of_fails {e : ErrorId} {s s' : Store} (h : Fails e s s') : Lasting s.outline s'.outline := by
  refine ⟨fun x q hq hs ↦ ?_, fun x q hq hs he hw ↦ ?_⟩
  · rcases Store.outline_of_fails h x with hx | ⟨r, -, hx⟩
    · exact ⟨q, hx.trans hq, hs⟩
    · exact ⟨_, hx, rfl⟩
  · rcases Store.outline_of_fails h x with hx | ⟨r, -, hx⟩
    · exact ⟨q, hx.symm.trans hq, hs, he, hw⟩
    · obtain rfl : _ = q := Option.some.inj (hx.symm.trans hq)
      exact nomatch he

end Lasting

/-! ## The invariant -/

/-- The invariant of a scene. -/
structure Valid (S : Scene) : Prop where
  sound : Sound S.store.outline S.tours S.queue S.lone S.due S.events
  ledger : Ledger S.store S.hand S.events
  called : ∀ m c k, .ended m c k ∈ S.events → .began m c ∈ S.events
  /-- The promise of a module that awaits and was evaluated without an error is fulfilled, and
  nothing is left by which its evaluation would go on once more. -/
  fulfilled : ∀ m r, S.store.outline m = some r → r.status = .evaluated →
    r.evaluationError = none → r.entries.awaits = true →
    ∃ p, .began m (some p) ∈ S.events ∧ S.store.promise? p = some .fulfilled ∧
      S.store.tokens S.hand m p = 0
  /-- Evaluation goes on with every module that awaits and is not over, if jobs are kept. -/
  token : S.store.keepsJobs = true → ∀ m p, .began m (some p) ∈ S.events → ∀ r,
    S.store.outline m = some r → r.status ≠ .evaluated → S.store.tokens S.hand m p = 1

/-- The same calls of bodies. -/
theorem Ledger.events {s : Store} {hand : List Job} {H H' : List Event} (h : Ledger s hand H)
    (hb : ∀ x c, .began x c ∈ H' ↔ .began x c ∈ H) : Ledger s hand H' where
  made m p hm := h.made m p ((hb _ _).1 hm)
  reaction m p hm := (hb _ _).2 (h.reaction m p hm)
  job m c hm := by
    obtain ⟨p, hp, hc⟩ := h.job m c hm
    exact ⟨p, (hb _ _).2 hp, hc⟩
  single m p hm := h.single m p ((hb _ _).1 hm)

theorem Sound.singlyBegun {o : Outline} {T : List Tour} {F X G : List ModuleId} {H : List Event}
    (h : Sound o T F X G H) : SinglyBegun H := by
  have hnodup := h.onceBegun
  clear h
  intro m p p' hp hp'
  induction H with
  | nil => exact absurd hp List.not_mem_nil
  | cons e H ih =>
    have hmem : ∀ {q}, .began m (some q) ∈ H → m ∈ begun H := fun hq ↦ mem_begun.2 ⟨_, hq⟩
    cases e with
    | began x c =>
      rw [begun, List.nodup_cons] at hnodup
      rcases List.mem_cons.1 hp with heq | hq <;> rcases List.mem_cons.1 hp' with heq' | hq'
      · cases heq
        cases heq'
        rfl
      · cases heq
        exact absurd (hmem hq') hnodup.1
      · cases heq'
        exact absurd (hmem hq) hnodup.1
      · exact ih hnodup.2 hq hq'
    | ended x c k => exact ih (by simpa [begun] using hnodup) (by simpa using hp) (by simpa using hp')
    | done a r => exact ih (by simpa [begun] using hnodup) (by simpa using hp) (by simpa using hp')

namespace Valid

variable {s s' : Store} {T T' : List Tour} {F F' X X' G G' : List ModuleId} {J : List Job}
  {H H' : List Event}

/-- A move by which no module that awaits is begun or finished. -/
theorem of_lasting (h : Valid ⟨s, T, F, X, G, J, H⟩) (hs : Sound s'.outline T' F' X' G' H')
    (hsettles : Settles s s') (hlast : Lasting s.outline s'.outline)
    (hb : ∀ x p, .began x (some p) ∈ H' ↔ .began x (some p) ∈ H)
    (hc : ∀ m c k, .ended m c k ∈ H' → .began m c ∈ H') :
    Valid ⟨s', T', F', X', G', J, H'⟩ := by
  obtain ⟨hL, hcarried⟩ := h.ledger.settles h.sound.singlyBegun hsettles
  have hL' : Ledger s' J H' :=
    ⟨fun m p hm ↦ hL.made m p ((hb _ _).1 hm), fun m p hm ↦ (hb _ _).2 (hL.reaction m p hm),
      fun m c hm ↦ (hL.job m c hm).imp fun p hp ↦ ⟨(hb _ _).2 hp.1, hp.2⟩,
      fun m p hm ↦ hL.single m p ((hb _ _).1 hm)⟩
  refine ⟨hs, hL', hc, fun m r hr hst he hw ↦ ?_, fun hk m p hm r hr hst ↦ ?_⟩
  · obtain ⟨r₀, hr₀, hst₀, he₀, hw₀⟩ := hlast.clean m r hr hst he hw
    obtain ⟨p, hp, hfulfilled, htokens⟩ := h.fulfilled m r₀ hr₀ hst₀ he₀ hw₀
    exact ⟨p, (hb _ _).2 hp, hcarried.settled p (.ok ()) hfulfilled,
      Nat.le_zero.1 (htokens ▸ (hcarried.tokens m p hp).1)⟩
  · have hp := (hb _ _).1 hm
    have hk₀ : s.keepsJobs = true := hcarried.keepsJobs ▸ hk
    obtain ⟨r₀, hr₀, -⟩ := h.sound.began m _ hp
    refine ((hcarried.tokens m p hp).2 hk₀).trans (h.token hk₀ m p hp r₀ hr₀ fun he ↦ hst ?_)
    obtain ⟨r', hr', hst'⟩ := hlast.past m r₀ hr₀ he
    obtain rfl : r = r' := by simpa [hr] using hr'
    exact hst'

/-- A move that changes nothing but where walks stand. -/
theorem of_store (h : Valid ⟨s, T, F, X, G, J, H⟩) (hs : Sound s.outline T' F' X' G' H) :
    Valid ⟨s, T', F', X', G', J, H⟩ :=
  h.of_lasting hs (.refl s) (.refl _) (fun _ _ ↦ Iff.rfl) h.called

/-- A move by which no body is called or comes back. -/
theorem of_outline (h : Valid ⟨s, T, F, X, G, J, H⟩) (hs : Sound s'.outline T' F' X' G' H)
    (hsettles : Settles s s') (hlast : Lasting s.outline s'.outline) :
    Valid ⟨s', T', F', X', G', J, H⟩ :=
  h.of_lasting hs hsettles hlast (fun _ _ ↦ Iff.rfl) h.called

/-- A module that awaits is executed. -/
theorem startAsync {m : ModuleId} (h : Valid ⟨s, T, F, X, G, J, H⟩)
    (hs : Sound (s.startAsync m).2.outline T' F' X' G' (.began m (some (s.startAsync m).1) :: H))
    (hb : ¬∃ c, .began m c ∈ H) :
    Valid ⟨(s.startAsync m).2, T', F', X', G', J, .began m (some (s.startAsync m).1) :: H⟩ := by
  obtain ⟨hL, hcarried, htoken⟩ := h.ledger.startAsync hb
  have hlast : Lasting s.outline (s.startAsync m).2.outline := by
    rw [Store.outline_startAsync]
    exact .modifySource s m fun _ ↦ ⟨rfl, rfl, rfl⟩
  refine ⟨hs, hL, fun x c k hx ↦ ?_, fun x r hr hst he hw ↦ ?_, fun hk x p hx r hr hst ↦ ?_⟩
  · exact List.mem_cons_of_mem _ (h.called x c k (by simpa using hx))
  · obtain ⟨r₀, hr₀, hst₀, he₀, hw₀⟩ := hlast.clean x r hr hst he hw
    obtain ⟨p, hp, hfulfilled, htokens⟩ := h.fulfilled x r₀ hr₀ hst₀ he₀ hw₀
    exact ⟨p, List.mem_cons_of_mem _ hp, hcarried.settled p (.ok ()) hfulfilled,
      Nat.le_zero.1 (htokens ▸ (hcarried.tokens x p hp).1)⟩
  · rcases List.mem_cons.1 hx with hx | hx
    · cases hx
      exact htoken
    · have hk₀ : s.keepsJobs = true := hcarried.keepsJobs ▸ hk
      obtain ⟨r₀, hr₀, -⟩ := h.sound.began x _ hx
      refine ((hcarried.tokens x p hx).2 hk₀).trans (h.token hk₀ x p hx r₀ hr₀ fun he ↦ hst ?_)
      obtain ⟨r', hr', hst'⟩ := hlast.past x r₀ hr₀ he
      obtain rfl : r = r' := by simpa [hr] using hr'
      exact hst'

/-! ## Moves -/

/-- The job in hand is done with, which does not go on with a module that is not over. -/
theorem drop {j : Job} (h : Valid ⟨s, T, F, X, G, [j], H⟩)
    (hj : ∀ m, j.reaction = .completeModule m → s.status? m = some .evaluated) :
    Valid ⟨s, T, F, X, G, [], H⟩ := by
  refine ⟨h.sound, h.ledger.drop, h.called, fun m r hr hst he hw ↦ ?_, fun hk m p hm r hr hst ↦ ?_⟩
  · obtain ⟨p, hp, hfulfilled, htokens⟩ := h.fulfilled m r hr hst he hw
    refine ⟨p, hp, hfulfilled, ?_⟩
    simp only [Store.tokens, List.cons_append, List.nil_append, List.countP_cons] at htokens ⊢
    omega
  · have hnot : j.reaction.completes m = false := by
      rw [← Bool.not_eq_true]
      intro hc
      cases hreaction : j.reaction with
      | completeModule x =>
        obtain rfl : x = m := by simpa [hreaction, Reaction.completes] using hc
        have := hj x hreaction
        obtain ⟨q, hq, rfl⟩ := Store.source?_of_outline hr
        exact hst (by simpa [Store.status?, hq] using this)
      | _ => simp [hreaction, Reaction.completes] at hc
    have := h.token hk m p hm r hr hst
    simpa [Store.tokens, hnot] using this

/-- A job comes into hand. -/
theorem take {j : Job} {rest : List Job} (h : Valid ⟨s, T, F, X, G, [], H⟩)
    (hj : s.jobs = j :: rest) : Valid ⟨{ s with jobs := rest }, T, F, X, G, [j], H⟩ := by
  have htokens : ∀ m p, ({ s with jobs := rest } : Store).tokens [j] m p = s.tokens [] m p :=
    fun m p ↦ by
      unfold Store.tokens
      rw [hj]
      rfl
  refine ⟨h.sound, ⟨h.ledger.made, h.ledger.reaction, fun m c hm ↦ ?_, fun m p hm ↦ ?_⟩, h.called,
    fun m r hr hst he hw ↦ ?_, fun hk m p hm r hr hst ↦ ?_⟩
  · refine h.ledger.job m c ?_
    simpa [hj] using hm
  · rw [htokens]
    exact h.ledger.single m p hm
  · obtain ⟨p, hp, hfulfilled, ht⟩ := h.fulfilled m r hr hst he hw
    exact ⟨p, hp, hfulfilled, (htokens m p).trans ht⟩
  · exact (htokens m p).trans (h.token hk m p hm r hr hst)

/-- A module that awaits has finished. -/
theorem fulfill {m : ModuleId} {r : SourceText}
    (h : Valid ⟨s, [], [], [], [], [⟨.completeModule m, .ok ()⟩], H⟩)
    (hm : s.source? m = some r) (hs : r.status ≠ .evaluated) :
    Valid ⟨s.finishModule m, [], [], [], r.asyncParents, [], H⟩ := by
  obtain ⟨p, hp, hfulfilled⟩ := h.ledger.job m (.ok ()) (by simp)
  have hsound := h.sound.fulfill hm hs hp rfl
  obtain ⟨hL, hcarried⟩ := h.ledger.settles h.sound.singlyBegun (.finishModule s m)
  have hself := Store.outline_finishModule_self hm
  have hne := fun x (hx : x ≠ m) ↦ Store.outline_finishModule_of_ne s hx
  have htokens : ∀ x q, (s.finishModule m).tokens [⟨.completeModule m, .ok ()⟩] x q =
      (s.finishModule m).tokens [] x q + if x = m then 1 else 0 := fun x q ↦ by
    simp only [Store.tokens, List.cons_append, List.nil_append, List.countP_cons,
      Reaction.completes, beq_iff_eq, eq_comm (a := m)]
    omega
  refine ⟨hsound, hL.drop, h.called, fun x q hq hst he hw ↦ ?_, fun hk x q hx q' hq' hst ↦ ?_⟩
  · by_cases hx : x = m
    · subst hx
      refine ⟨p, hp, hcarried.settled p (.ok ()) hfulfilled, ?_⟩
      have h1 : (s.finishModule x).tokens [⟨.completeModule x, .ok ()⟩] x p ≤ 1 :=
        hL.single x p hp
      rw [htokens, if_pos rfl] at h1
      exact Nat.le_zero.1 (Nat.le_of_succ_le_succ h1)
    · obtain ⟨p', hp', hfulfilled', ht⟩ := h.fulfilled x q ((hne x hx).symm.trans hq) hst he hw
      refine ⟨p', hp', hcarried.settled p' (.ok ()) hfulfilled', Nat.le_zero.1 ?_⟩
      have h1 := (hcarried.tokens x p' hp').1
      rw [htokens, if_neg hx] at h1
      exact ht ▸ h1
  · by_cases hxm : x = m
    · subst hxm
      obtain rfl : _ = q' := Option.some.inj (hself.symm.trans hq')
      exact absurd rfl hst
    · have hk₀ : s.keepsJobs = true := hcarried.keepsJobs ▸ hk
      have h1 := h.token hk₀ x q hx q' ((hne x hxm).symm.trans hq') hst
      have h2 := (hcarried.tokens x q hx).2 hk₀
      rw [htokens, if_neg hxm] at h2
      exact h2.trans h1

end Valid

/-- A new walk, of an evaluation that gets a promise. -/
theorem Sound.evaluate {s : Store} {H : List Event} (h : Sound s.outline [] [] [] [] H)
    (root : ModuleId) (goal : EvaluationGoal) :
    Sound (s.newCapability root).2.outline [⟨goal, .coming root .executing, {}⟩] [] [] [] H :=
  (h.newCapability root).embark goal root .executing

theorem outline_finish (s : Store) (goal : EvaluationGoal) :
    (goal.finish s).1.outline = s.outline := by
  cases goal with
  | promise root p =>
    simp only [EvaluationGoal.finish, Store.finishEvaluation]
    split
    · exact Store.outline_congr (Store.modules_settle _ _ _)
    · rfl
  | force m =>
    simp only [EvaluationGoal.finish, Store.finishForced]
    split <;> rfl

theorem outline_fail (s : Store) (stack : List ModuleId) (e : ErrorId) (goal : EvaluationGoal) :
    (goal.fail s stack e).1.outline = (s.failModules stack e).outline := by
  cases goal with
  | promise root p => exact Store.outline_congr (Store.modules_settle _ _ _)
  | force m => rfl

theorem SourceText.arrival_not_evaluated {r : SourceText} {t t' : Traversal}
    (h : r.arrival t = .enter t') : r.status ≠ .evaluated := fun he ↦ by
  obtain ⟨-, hs⟩ := SourceText.arrival_eq_enter h
  simp [he, Status.outline] at hs

/-- The components that walks take off their stacks are evaluated without an error only if they do
not await. -/
theorem Sound.lasting_pop {s : Store} {goal : EvaluationGoal} {w : EvaluationWalk} {T : List Tour}
    {F X G : List ModuleId} {H : List Event} {m : ModuleId} {above below : List ModuleId}
    (h : Sound s.outline (⟨goal, .through m, w⟩ :: T) F X G H)
    (hstack : w.stack = above ++ m :: below) (hm : m ∉ above) :
    Lasting s.outline (s.completeMembers m (above ++ [m])).outline := by
  have hnodup : (above ++ m :: below).Nodup := hstack ▸ (List.nodup_append.1 h.stacked).1
  have hgone : (above ++ [m]).Nodup := by
    refine List.Sublist.nodup ?_ hnodup
    exact (List.append_sublist_append_left above).2 (List.singleton_sublist.2 List.mem_cons_self)
  have hmem : ∀ x ∈ above ++ [m], x ∈ w.stack := fun x hx ↦ by
    rw [hstack]
    simp only [List.mem_append, List.mem_cons, List.not_mem_nil, or_false] at hx ⊢
    exact hx.imp id .inl
  have hin : ∀ x r, x ∈ above ++ [m] → s.source? x = some r →
      (s.completeMembers m (above ++ [m])).outline x = some (r.complete m).outline := fun x r ↦
    Store.outline_foldl_modifySource_of_mem (SourceText.complete m) hgone
  have hoff : ∀ x, x ∉ above ++ [m] →
      (s.completeMembers m (above ++ [m])).outline x = s.outline x := fun x ↦
    Store.outline_foldl_modifySource_of_not_mem (SourceText.complete m) hgone s
  -- what is known of a module that is taken off
  have htop : (⟨goal, .through m, w⟩ : Tour) ∈ (⟨goal, .through m, w⟩ :: T : List Tour) :=
    List.mem_cons_self
  have hwalked : ∀ x r, x ∈ above ++ [m] → s.source? x = some r → r.status.isWalked = true ∧
      (r.status = .evaluating → r.asyncState = .pending ∨ r.entries.awaits = false) := by
    intro x r hx hr
    have L := h.lawful x _ (Store.outline_eq_some hr)
    refine ⟨by simpa using L.stacked.1 ⟨_, htop, hmem x hx⟩, fun hs ↦ ?_⟩
    exact (L.passed (h.not_ahead_of_popped hstack hm hx).1 (by simp [hs])).imp id And.left
  refine ⟨fun x q hq hs ↦ ?_, fun x q hq hs he hw ↦ ?_⟩
  · by_cases hx : x ∈ above ++ [m]
    · obtain ⟨r, hr, rfl⟩ := Store.source?_of_outline hq
      have := (hwalked x r hx hr).1
      rw [SourceText.outline_status, Status.outline_eq_evaluated] at hs
      simp [hs, Status.isWalked] at this
    · exact ⟨q, by rw [hoff x hx, hq], hs⟩
  · by_cases hx : x ∈ above ++ [m]
    · obtain ⟨q₀, hq₀⟩ := Option.isSome_iff_exists.1 (h.known _ htop x (hmem x hx))
      obtain ⟨r, hr, rfl⟩ := Store.source?_of_outline hq₀
      obtain rfl : _ = q := Option.some.inj ((hin x r hx hr).symm.trans hq)
      obtain ⟨hwalk, hawait⟩ := hwalked x r hx hr
      rw [SourceText.outline_status, Status.outline_eq_evaluated] at hs
      rcases EvaluationWalk.completeStatus_cases hwalk with ⟨-, -, hc⟩ | ⟨hr', hp, -⟩ |
        ⟨-, -, hc⟩ | ⟨-, -, hc⟩
      · exact absurd (hc.symm.trans hs) (by simp)
      · exact absurd ((hawait hr').resolve_left hp) (by
          rw [show r.entries.awaits = true from hw]
          simp)
      · exact absurd (hc.symm.trans hs) (by simp)
      · exact absurd (hc.symm.trans hs) (by simp)
    · exact ⟨q, by rw [← hoff x hx, hq], hs, he, hw⟩

/-- A walk is back at a module from another one. -/
theorem Sound.backHere {o : Outline} {goal : EvaluationGoal} {st : Stance} {w : EvaluationWalk}
    {T : List Tour} {F X G : List ModuleId} {H : List Event} {d : ModuleId} {f : EvaluationFrame}
    {rest : List EvaluationFrame} (h : Sound o (⟨goal, st, w⟩ :: T) F X G H)
    (hst : st = .back d ∨ st = .through d) (hf : w.frames = f :: rest) :
    Sound o (⟨goal, .here, w⟩ :: T) F X G H := by
  rcases hst with rfl | rfl
  · exact h.stance rfl rfl rfl rfl nofun nofun
  · exact h.through hf

/-- A module that does not await was called without a promise. -/
theorem Sound.began_none {o : Outline} {T : List Tour} {F X G : List ModuleId} {H : List Event}
    (h : Sound o T F X G H) {m : ModuleId} {c : Option PromiseId} {r : SourceText}
    (hb : .began m c ∈ H) (hr : o m = some r) (hw : r.entries.awaits = false) : c = none := by
  obtain ⟨q, hq, hc⟩ := h.began m c hb
  obtain rfl : r = q := by simpa [hr] using hq
  rw [hw] at hc
  simpa using hc

/-- Modules fail together. -/
theorem Sound.rejectModule {s : Store} {F X X' : List ModuleId} {H : List Event}
    (h : Sound s.outline [] F X [] H) (m : ModuleId) (e : ErrorId) (hX : ∀ x ∈ X', x ∈ X)
    (hX' : ∀ x ∈ X, x ∈ X' ∨ x = m) : Sound (s.rejectModule m e).outline [] F X' [] H := by
  refine h.reject (e := e) (Store.outline_of_fails (Store.fails_rejectModule s m e)) hX
    fun x hx ↦ (hX' x hx).imp id ?_
  rintro rfl
  obtain ⟨q, hq, -⟩ := h.lone x hx
  obtain ⟨r, hr, rfl⟩ := Store.source?_of_outline hq
  obtain ⟨r', hr', hs⟩ := Store.status_rejectModule (e := e) hr
  exact ⟨_, Store.outline_eq_some hr', by simp [hs]⟩

/-- Every move keeps the invariant. -/
theorem Move.valid {mode : Mode} {S S' : Scene} (hmove : Move mode S S') (h : Valid S) :
    Valid S' := by
  have hs := h.sound
  induction hmove with
  | aside ha _ =>
    exact h.of_outline (ha.outline ▸ hs) ha.settles (ha.outline ▸ .refl _)
  | note a r =>
    refine h.of_lasting ?_ (.refl _) (.refl _) (fun _ _ ↦ by simp) fun m c k hx ↦ ?_
    · exact hs.events (List.subset_cons_self _ _) rfl fun _ _ ↦ by simp
    · exact List.mem_cons_of_mem _ (h.called m c k (by simpa using hx))
  | evaluate hm hroot hcap _ =>
    exact h.of_outline (hs.evaluate _ _) (.newCapability _ _)
      (.modifySource _ _ fun _ ↦ ⟨rfl, rfl, rfl⟩)
  | force hm h1 h2 h3 hready _ => exact h.of_store (hs.embark _ _ _)
  | request hf hd =>
    refine h.of_store (hs.stance rfl rfl (by simp [hf]) rfl ?_ (by simp))
    exact fun _ _ _ hnil ↦ absurd hnil (by simp)
  | unloaded hf hd _ => exact h.of_store (hs.stance rfl rfl (by simp [hf]) rfl (by simp) (by simp))
  | synthetic hd => exact h.of_store (hs.stance rfl rfl rfl rfl (by simp) (by simp))
  | @pass s goal w t T F X G J H d r hd ha _ =>
    have hback : ∀ e, Stance.back d = .back e → (s.outline e).isSome := by
      rintro e he
      cases he
      simp [Store.outline_eq_some hd]
    have hs' : Sound s.outline (⟨goal, .back d, w⟩ :: T) F X G H :=
      hs.stance rfl rfl rfl rfl (by simp) hback
    split
    · exact h.of_outline (hs'.detach _ _) (.detach _ _ _) (.detach _ _ _)
    · exact h.of_store hs'
  | enter hd ha hnot hmode =>
    refine h.of_outline (hs.enter hd ha hnot) (.modifySource _ _ _) ?_
    refine .single (Store.outline_eq_some hd) (Store.outline_modifySource_self hd _)
      (fun x hx ↦ Store.outline_modifySource_of_ne _ hx _) (fun he ↦ ?_) fun he ↦ ?_
    · exact absurd (by simpa using he) (SourceText.arrival_not_evaluated ha)
    · rw [SourceText.status_outline_entered] at he
      rename_i t' _ _ _ _ _ _ _ _
      cases t' <;> contradiction
  | leaveLast hf => exact h.of_store (hs.stance rfl rfl rfl rfl (by simp) (by simp))
  | @leaveBack s goal st w f rest T F X G J H d r q hst hf hr hq hlead =>
    have hs' := (hs.backHere (hst.imp id And.left) hf).lowerAncestor f.module q.dfsAncestorIndex
    refine h.of_outline (hs'.await List.mem_cons_self (hf ▸ List.mem_cons_self))
      ((Settles.modifySource _ _ _).trans (.await _ _ _)) (.trans ?_ (.await _ _ _))
    exact .modifySource _ _ fun _ ↦ ⟨rfl, rfl, rfl⟩
  | leaveSearched hst hf hr hq hlead hqs =>
    exact h.of_outline ((hs.backHere (hst.imp id And.left) hf).await List.mem_cons_self
      (hf ▸ List.mem_cons_self)) (.await _ _ _) (.await _ _ _)
  | leaveOff hf hr hq hlead hqs he =>
    exact h.of_outline ((hs.backHere (.inl rfl) hf).await List.mem_cons_self
      (hf ▸ List.mem_cons_self)) (.await _ _ _) (.await _ _ _)
  | hold hf hr hpos =>
    exact h.of_outline (hs.hold hf) (.modifySource _ _ _)
      (.modifySource _ _ fun _ ↦ ⟨rfl, rfl, rfl⟩)
  | run hf hr h0 hw =>
    refine h.of_lasting (hs.run hf hr hw) (.refl _) (.refl _) (fun _ _ ↦ by simp)
      fun m c k hx ↦ ?_
    exact List.mem_cons_of_mem _ (h.called m c k (by simpa using hx))
  | runAsync hf hr h0 hw =>
    obtain ⟨-, -, -, -, hb, -⟩ := hs.lawful_top hf
    exact h.startAsync (hs.runAsync hf hr h0 hw _) hb
  | search hf =>
    refine h.of_outline (hs.search hf) (.modifySource _ _ _) (.modifySource _ _ fun r ↦ ?_)
    split <;> exact ⟨rfl, rfl, rfl⟩
  | ended hb hc =>
    refine h.of_lasting (hs.ended hb hc) (.refl _) (.refl _) (fun _ _ ↦ by simp)
      fun m c k hx ↦ List.mem_cons_of_mem _ ?_
    rcases List.mem_cons.1 hx with hx | hx
    · cases hx
      exact hb
    · exact h.called m c k hx
  | pop hstack hnot hroot =>
    refine h.of_outline (hs.pop hstack hnot) (.foldl (fun _ _ ↦ .modifySource _ _ _) _ _) ?_
    exact hs.lasting_pop hstack hnot
  | @done s goal w T F X G J H hf =>
    have ho := outline_finish s goal
    exact h.of_outline (ho ▸ hs.done hf) (.finish _ _) (ho ▸ .refl _)
  | @fail s goal st w T F X G J H e _ _ =>
    have ho := outline_fail s w.stack e goal
    refine h.of_outline (ho ▸ hs.fail e) (.fail _ _ _ _) (ho ▸ .failModules _ ?_ e)
    exact (List.nodup_append.1 hs.stacked).1
  | failed e hb =>
    refine h.of_lasting (hs.events (List.subset_cons_self _ _) rfl fun _ _ ↦ by simp) (.refl _)
      (.refl _) (fun _ _ ↦ by simp) fun m c k hx ↦ List.mem_cons_of_mem _ ?_
    rcases List.mem_cons.1 hx with hx | hx
    · cases hx
      exact hb
    · exact h.called m c k hx
  | take hj => exact h.take hj
  | drop hj => exact h.drop fun m hm ↦ absurd hm (hj m)
  | late hm =>
    refine h.drop fun x hx ↦ ?_
    cases hx
    exact hm
  | fulfill hm hst => exact h.fulfill hm hst
  | @reject s m e H =>
    have hs' : Sound (s.rejectModule m e).outline [] [] [] [] H :=
      hs.rejectModule m e (by simp) (by simp)
    have h' := h.of_outline hs' (.rejectFrom _ s m e) (.of_fails (Store.fails_rejectModule s m e))
    refine h'.drop fun x hx ↦ ?_
    cases hx
    obtain ⟨p, hp, -⟩ := h.ledger.job m (.error e) (by simp)
    obtain ⟨q, hq, -⟩ := hs.began m _ hp
    obtain ⟨r, hr, rfl⟩ := Store.source?_of_outline hq
    obtain ⟨r', hr', hst⟩ := Store.status_rejectModule (e := e) hr
    simp [Store.status?, hr', hst]
  | skip hm => exact h.of_store hs.skip
  | lessen hF hb hm h0 =>
    exact h.of_outline (hs.lessen hF hb hm) (.modifySource _ _ _)
      (.modifySource _ _ fun _ ↦ ⟨rfl, rfl, rfl⟩)
  | release hF hb hm h0 =>
    exact h.of_outline (hs.release hF hb hm h0) (.modifySource _ _ _)
      (.modifySource _ _ fun _ ↦ ⟨rfl, rfl, rfl⟩)
  | past hm => exact h.of_store (hs.past hm)
  | pastSearched hm hw hst =>
    refine h.of_outline (hs.pastSearched hm hw hst) (.finishSearched _ _) ?_
    refine .single (Store.outline_eq_some hm) (Store.outline_finishSearched_self hm)
      (fun x hx ↦ Store.outline_finishSearched_of_ne _ hx) (fun he ↦ ?_) (by simp)
    simp [hst] at he
  | free hm hst hw hst' =>
    refine h.of_lasting (hs.free hm hst hw hst') (.refl _) (.refl _) (fun _ _ ↦ by simp)
      fun m c k hx ↦ ?_
    exact List.mem_cons_of_mem _ (h.called m c k (by simpa using hx))
  | freeAsync hm hst hw =>
    exact h.startAsync (hs.freeAsync hm hst hw _) (hs.head hm hst).2.1
  | @freed s m F H =>
    obtain ⟨q, hmo, hw, c, hb⟩ := hs.lone m (List.mem_singleton.2 rfl)
    obtain ⟨r, hm, rfl⟩ := Store.source?_of_outline hmo
    obtain rfl := hs.began_none hb hmo hw
    refine h.of_lasting hs.freed (.finishModule _ _) ?_ (fun _ _ ↦ by simp)
      fun m c k hx ↦ List.mem_cons_of_mem _ ?_
    · refine .single hmo (Store.outline_finishModule_self hm)
        (fun x hx ↦ Store.outline_finishModule_of_ne _ hx) (fun _ ↦ rfl) fun _ _ hw' ↦ ?_
      exact absurd hw' (by simpa using hw)
    · rcases List.mem_cons.1 hx with hx | hx
      · cases hx
        exact hb
      · exact h.called m c k hx
  | @freedError s m e F H =>
    obtain ⟨q, hmo, hw, c, hb⟩ := hs.lone m (List.mem_singleton.2 rfl)
    obtain rfl := hs.began_none hb hmo hw
    have hs' : Sound (s.rejectModule m e).outline [] F [] [] H :=
      hs.rejectModule m e (by simp) fun x hx ↦ .inr (List.mem_singleton.1 hx)
    refine h.of_lasting (hs'.events (List.subset_cons_self _ _) rfl fun _ _ ↦ by simp)
      (.rejectFrom _ s m e) (.of_fails (Store.fails_rejectModule s m e)) (fun _ _ ↦ by simp)
      fun m c k hx ↦ List.mem_cons_of_mem _ ?_
    rcases List.mem_cons.1 hx with hx | hx
    · cases hx
      exact hb
    · exact h.called m c k hx
  | freedAsync hb =>
    refine h.of_lasting (hs.events (List.subset_cons_self _ _) rfl fun _ _ ↦ by simp) (.refl _)
      (.refl _) (fun _ _ ↦ by simp) fun m c k hx ↦ List.mem_cons_of_mem _ ?_
    rcases List.mem_cons.1 hx with hx | hx
    · cases hx
      exact hb
    · exact h.called m c k hx

end EcmaModules
