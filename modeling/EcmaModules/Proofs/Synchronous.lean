import EcmaModules.Proofs.Sequence

/-!
# Calls that evaluate and do not wait

If none of the modules that a module leads to awaits, then a call for it to be evaluated is over when it comes
back: the promise that it returns is settled. Bodies have run in the order of the plain traversal
(`EcmaModules.Store.evaluationOrder`), as far as the first module that throws, or has failed before.
-/

namespace EcmaModules

open EvaluationWalk (push)

variable {s s' s₀ : Store} {w w' : EvaluationWalk} {m d x root : ModuleId} {p : PromiseId} {st : State}

/-! ## Calls in which nothing is called -/

namespace Store

/-- In the call for the module to be evaluated, bodies call nothing. -/
def CallsNothing (s : Store) (root : ModuleId) : Prop := (Machine.start s (.evaluate root)).step.StaysCalm

theorem CallsNothing.calm (h : s.CallsNothing root) {i : ℕ} (hi : i ≠ 0) :
    (Machine.step^[i] (.start s (.evaluate root))).Calm := by
  obtain ⟨i, rfl⟩ := Nat.exists_eq_succ_of_ne_zero hi
  exact h i

theorem CallsNothing.solitary (h : s.CallsNothing root) (hroot : s.Linked root) {i : ℕ}
    (hin : (Machine.step^[i] (.start s (.evaluate root))).Inward) :
    (Machine.step^[i] (.start s (.evaluate root))).Solitary (Machine.step^[i] (.start s (.evaluate root))).step := by
  have hanswers : ∀ a rest m, (Machine.step^[i] (.start s (.evaluate root))).control = .run (.answers (a :: rest)) →
      a.outcome = .ok m → ((Machine.step^[i] (.start s (.evaluate root))).store.module? m).isSome := by
    intro a rest m hcontrol
    have hcurrent := hin.current
    simp only [Machine.current, hcontrol] at hcurrent
    contradiction
  rcases Nat.eq_zero_or_pos i with rfl | hi
  · refine ⟨⟨?_, ?_, hanswers⟩, fun _ _ ↦ rfl, ?_⟩
    · rintro _ ⟨⟩
      exact hroot
    · rintro _ ⟨⟩
    · rintro _ ⟨⟩
  · have hcalm := h.calm hi.ne'
    exact ⟨⟨fun m hm ↦ absurd hm (hcalm.evaluate m), fun m hm ↦ absurd hm (hcalm.link m), hanswers⟩,
      fun m hm ↦ absurd hm (hcalm.evaluate m), fun m hm ↦ absurd hm (hcalm.force m)⟩

/-- The call is part of a run. -/
theorem CallsNothing.turns (h : s.CallsNothing root) (hi : (State.idle s).Interlinked) (hroot : s.Linked root) (i : ℕ) :
    Turns Machine.Solitary (.idle s) (.busy (.evaluate root) (Machine.step^[i] (.start s (.evaluate root)))) ∧
      (Machine.step^[i] (.start s (.evaluate root))).Inward := by
  induction i with
  | zero => exact ⟨.single (.call (.evaluate root) rfl), rfl, by rintro _ ⟨⟩⟩
  | succ i ih =>
    obtain ⟨hturns, hin⟩ := ih
    have hinterlinked : (Machine.step^[i] (.start s (.evaluate root))).Interlinked :=
      hi.turns (Turns.mono (fun _ _ hP ↦ hP.toLinksApart) hturns)
    rw [Function.iterate_succ_apply']
    exact ⟨hturns.tail (.step (h.solitary hroot hin)), hin.keep hinterlinked.upward.linkage⟩

end Store

/-- A run in which bodies start no evaluations. -/
theorem Turns.run (hs : (State.idle s₀).Interlinked) (h : Turns Machine.Solitary (.idle s₀) st) :
    ∃ H, Run Machine.Asserts s₀ st H := by
  induction h with
  | refl => exact ⟨[], .start⟩
  | @tail st st' hturns hturn ih =>
    obtain ⟨H, hrun⟩ := ih
    have hinterlinked := hs.turns (Turns.mono (fun _ _ hP ↦ hP.toLinksApart) hturns)
    cases hturn with
    | call a ha => exact ⟨_, .call a hrun ha⟩
    | step hP => exact ⟨_, .step hrun hP.outside (Machine.Interlinked.asserts hinterlinked hP.toLinksApart)⟩
    | consult hq hconsults => exact ⟨_, .consult hrun hq hconsults⟩
    | answer as hq => exact ⟨_, .answer as hrun hq⟩
    | finish hr => exact ⟨_, .finish hrun hr⟩

/-! ## The course of a call -/

/-- A call for a module that is linked to be evaluated, in the course of a run. None of the modules that it leads
to awaits, and bodies call nothing. -/
structure Store.Synchronous (s₀ s : Store) (root : ModuleId) : Prop where
  unread : s₀.Unread
  pristine : s₀.Pristine
  evaluationOnly : s₀.EvaluationOnly
  turns : Turns Machine.Solitary (.idle s₀) (.idle s)
  linked : s.status? root = some .linked
  awaits : ∀ x, s.Reaches root x → (s.entries x).awaits = false
  callsNothing : s.CallsNothing root

namespace Store.Synchronous

theorem upright (h : s₀.Synchronous s root) : (State.idle s₀).Interlinked := h.unread.interlinked h.pristine.upright

theorem interlinked (h : s₀.Synchronous s root) : (State.idle s).Interlinked :=
  h.upright.turns (Turns.mono (fun _ _ hP ↦ hP.toLinksApart) h.turns)

/-- Before the call, no module is being evaluated. -/
theorem idle (h : s₀.Synchronous s root) (x : ModuleId) : s.status? x ≠ some .evaluating := by
  obtain ⟨H, hwoven, -⟩ := Scene.Woven.turns h.upright h.pristine.toFresh h.evaluationOnly h.turns
  intro hx
  obtain ⟨r, hr, hst⟩ := source?_of_status? hx
  obtain ⟨τ, hτ, -⟩ := (hwoven.valid.sound.lawful x _ (outline_eq_some hr)).stacked.2 (by simp [hst]; rfl)
  contradiction

theorem poised (h : s₀.Synchronous s root) : s.Poised := by
  obtain ⟨W, T, hcharts⟩ := h.interlinked.charts
  refine ⟨hcharts.rounded, h.interlinked.linking.1.closed, fun x hx ↦ ?_⟩
  obtain ⟨r, hr, hst⟩ := source?_of_status? hx
  rw [failure?_eq hr]
  exact h.interlinked.2.1 x r hr (by rw [hst]; decide)

theorem linked_of_reaches (h : s₀.Synchronous s root) (hx : s.Reaches root x) : s.Linked x :=
  h.poised.closed.leads (linked_of_status? h.linked) hx

theorem busy (h : s₀.Synchronous s root) (i : ℕ) :
    Turns Machine.Solitary (.idle s₀) (.busy (.evaluate root) (Machine.step^[i] (.start s (.evaluate root)))) :=
  h.turns.trans (h.callsNothing.turns h.interlinked (linked_of_status? h.linked) i).1

theorem machine (h : s₀.Synchronous s root) (i : ℕ) :
    (Machine.step^[i] (.start s (.evaluate root))).Interlinked :=
  h.upright.turns (Turns.mono (fun _ _ hP ↦ hP.toLinksApart) (h.busy i))

theorem echoes (h : s₀.Synchronous s root) (i : ℕ) : s.Echoes (Machine.step^[i] (.start s (.evaluate root))).store :=
  State.Charted.turns_echoes h.interlinked.1 <|
    (h.callsNothing.turns h.interlinked (linked_of_status? h.linked) i).1.mono fun _ _ hP ↦ hP.toLinksApart.fair

theorem secluded (h : s₀.Synchronous s root) (i : ℕ) :
    (Machine.step^[i] (.start s (.evaluate root))).store.Secluded (s.Reaches root) where
  closed _ _ hx hxy := hx.tail (((h.echoes i).requires h.poised.rounded (h.linked_of_reaches hx).old).1 hxy)
  awaits x r hx hr := by
    rw [← h.awaits x hx, ← (h.echoes i).entries, Store.entries, hr]
    rfl

/-- What is known of every machine of the call. -/
theorem sequential (h : s₀.Synchronous s root) {i : ℕ} (hi : i ≠ 0) :
    (Machine.step^[i] (.start s (.evaluate root))).Sequential (s.Reaches root) where
  calm := h.callsNothing.calm hi
  interlinked := h.machine i
  woven := by
    obtain ⟨H, hwoven, hfit⟩ := Scene.Woven.turns h.upright h.pristine.toFresh h.evaluationOnly (h.busy i)
    exact ⟨H, hwoven, hfit _ _ rfl⟩
  secluded := h.secluded i
  sheltered := @Secluded.sheltered _ (.busy _ _) _ (h.secluded i) h.upright h.pristine.toFresh
    h.evaluationOnly (h.busy i)

theorem climbs (h : s₀.Synchronous s root) (i : ℕ) : (Machine.step^[i] (.start s (.evaluate root))).Climbs := by
  obtain ⟨-, hin⟩ := h.callsNothing.turns h.interlinked (linked_of_status? h.linked) i
  have hsolitary := h.callsNothing.solitary (linked_of_status? h.linked) hin
  exact ((h.machine i).upward.step ((h.machine i).asserts hsolitary.toLinksApart)).2

theorem ends (h : s₀.Synchronous s root) :
    ∃ k, (Machine.step^[k] (.start s (.evaluate root))).result?.isSome := by
  obtain ⟨k, hk⟩ := (h.machine 0).upward.halts rfl
  refine ⟨k, hk fun i _ ↦ ?_⟩
  obtain ⟨-, hin⟩ := h.callsNothing.turns h.interlinked (linked_of_status? h.linked) i
  rw [Function.iterate_succ_apply']
  exact (h.machine i).asserts (h.callsNothing.solitary (linked_of_status? h.linked) hin).toLinksApart

/-- A module that has been linked never falls back. -/
theorem rises (h : s₀.Synchronous s root) {i j : ℕ} (hij : i ≤ j) {status : Status} (hle : .linked ≤ status)
    (hx : (Machine.step^[i] (.start s (.evaluate root))).store.status? x = some status) :
    ∃ status', (Machine.step^[j] (.start s (.evaluate root))).store.status? x = some status' ∧ status ≤ status' := by
  induction j, hij using Nat.le_induction with
  | base => exact ⟨status, hx, le_rfl⟩
  | succ j _ ih =>
    obtain ⟨status', hx, hrises⟩ := ih
    obtain ⟨r, hr, rfl⟩ := source?_of_status? hx
    rw [Function.iterate_succ_apply']
    rcases h.climbs j with hascends | hunlinks
    · obtain ⟨r', hr', hascends⟩ := hascends.after hr
      exact ⟨r'.status, by rw [status?, hr', Option.map_some], hrises.trans hascends.rises⟩
    · obtain ⟨r', hr', hrelapses⟩ := hunlinks.relapses.after hr
      refine ⟨r'.status, by rw [status?, hr', Option.map_some], hrises.trans ?_⟩
      rcases hrelapses.status with hsame | ⟨hlinking, -⟩
      · exact hsame.ge
      · exact absurd (hle.trans (hlinking ▸ hrises)) (by decide)

end Store.Synchronous

/-- In the call, the module comes to be evaluated. -/
def Store.Enters (s : Store) (root x : ModuleId) : Prop :=
  ∃ i, (Machine.step^[i] (.start s (.evaluate root))).store.status? x = some .evaluating

/-- A module that the call enters has another status in the end. -/
theorem Store.Synchronous.changes (h : s₀.Synchronous s root) (hx : s.Enters root x) {n : ℕ}
    (hn : (Machine.step^[n] (.start s (.evaluate root))).result?.isSome) :
    (Machine.step^[n] (.start s (.evaluate root))).store.status? x ≠ s.status? x := by
  obtain ⟨i, hi⟩ := hx
  obtain ⟨r, hr⟩ := Option.isSome_iff_exists.1 hn
  have hlater : (Machine.step^[max i n] (.start s (.evaluate root))).store =
      (Machine.step^[n] (.start s (.evaluate root))).store := by
    obtain ⟨d, hd⟩ := Nat.exists_eq_add_of_le (le_max_right i n)
    rw [hd, Nat.add_comm, Function.iterate_add_apply, Function.iterate_fixed (Machine.step_of_result? hr)]
  obtain ⟨status, hstatus, hle⟩ := h.rises (le_max_left i n) (by decide) hi
  rw [hlater] at hstatus
  rw [hstatus]
  intro hsame
  have hstart : (Machine.step^[0] (.start s (.evaluate root))).store.status? x = some status := hsame.symm
  obtain ⟨status', hi', hle'⟩ := h.rises (Nat.zero_le i) (le_trans (by decide) hle) hstart
  obtain rfl := Option.some.inj (hi.symm.trans hi')
  exact h.idle x (hsame.symm.trans (congrArg some (le_antisymm hle' hle)))

/-! ### How a call starts -/

/-- Nothing has been evaluated yet that starts at a linked module. -/
theorem Store.Synchronous.capability?_eq_none (h : s₀.Synchronous s root) : s.capability? root = none := by
  obtain ⟨H, hrun⟩ := Turns.run h.upright h.turns
  obtain ⟨-, hserves, -⟩ := hrun.serves h.pristine
  obtain ⟨r, hr, hst⟩ := source?_of_status? h.linked
  rw [capability?, hr]
  by_contra hne
  have := (Store.Serves.nil_iff.1 hserves).2 root r hr (Option.isSome_iff_ne_none.2 hne)
  simp [hst, Status.isSettling] at this

/-- The call makes a promise, and a walk that enters the module. -/
theorem Store.Synchronous.starts (h : s₀.Synchronous s root) : ∃ p s',
    (Machine.start s (.evaluate root)).Leads [] (Machine.walking root p s'
      { frames := [⟨root, .executing, (s.entries root).requests⟩], stack := [root], index := 1 }) ∧
      (∀ x, s'.state? x = if x = root then some (.evaluating, none) else s.state? x) ∧
      ∀ x, s'.progress x = s.progress x := by
  obtain ⟨r, hr, hst⟩ := source?_of_status? h.linked
  have hroot : s.evaluationRoot root = root := by
    rw [evaluationRoot, if_neg]
    simp [h.linked, Status.isSettling]
  have hself := source?_newCapability s root root
  rw [if_pos rfl, hr, Option.map_some] at hself
  have herror : r.evaluationError = none := by
    rw [← failure?_eq hr]
    exact h.poised.clean root h.linked
  have hentries : (s.newCapability root).2.entries root = s.entries root := by
    rw [entries, hself, entries, hr]
    rfl
  have hstart : EvaluationWalk.start (s.newCapability root).2 root =
      ((push (s.newCapability root).2 {} root .executing).1,
        .go { frames := [⟨root, .executing, (s.entries root).requests⟩], stack := [root], index := 1 }) := by
    rw [← hentries]
    simp [EvaluationWalk.start, EvaluationWalk.arrive, hself, SourceText.arrival, SourceText.traversal, hst, push]
  refine ⟨(s.newCapability root).1, (push (s.newCapability root).2 {} root .executing).1, ?_, fun x ↦ ?_, fun x ↦ ?_⟩
  · have hnext : Task.advance s (.evaluate root) = _ := show s.evaluate root = _ by
      simp only [evaluate, hr, hroot, h.capability?_eq_none, hstart]
      rfl
    exact .step (by simp only [Machine.start, Machine.incident?, hnext, EvaluationStep.next]) (congrArg (Machine.apply []) hnext)
  · rw [state?, show (push (s.newCapability root).2 {} root .executing).1.source? x = _ from
      source?_modifySource _ root _ x]
    split
    · next hx =>
      rw [hx, hself]
      exact congrArg some (Prod.ext rfl herror)
    · next hx => rw [source?_newCapability, if_neg hx, state?]
  · rw [progress, show (push (s.newCapability root).2 {} root .executing).1.synthetic? x = _ from
      synthetic?_modifySource _ root _ x, synthetic?_newCapability, progress]

/-! ### How it goes on -/

/-- There is nothing left to go through, or the walk fails. -/
inductive Machine.Ceases (root : ModuleId) (p : PromiseId) (s : Store) (w : EvaluationWalk) : Prop where
  | done : w.frames = [] →
      (walking root p s w).Leads [] ⟨s.finishEvaluation root p, .give (.promise p), []⟩ → Ceases root p s w
  | founders {l : List Incident} {d : ModuleId} {e : ErrorId} {s' : Store} : s.Founders w l d e s' →
      (walking root p s w).Leads l ⟨(s'.failModules w.stack e).reject p e, .give (.promise p), []⟩ →
      Ceases root p s w

/-- After a number of steps of the call the walk has come so far. -/
structure Store.Attains (s : Store) (root : ModuleId) (p : PromiseId) (n : ℕ) (done : List ModuleId)
    (y : Store × EvaluationWalk) : Prop where
  comes : Machine.step^[n + 1] (.start s (.evaluate root)) = Machine.walking root p y.1 y.2
  incidents : Machine.incidents (n + 1) (.start s (.evaluate root)) = done.map .begins
  inSequence : s.InSequence root done y
  entered : ∀ x, y.1.state? x ≠ s.state? x → s.Enters root x

namespace Store.Attains

variable {n : ℕ} {done : List ModuleId} {l : List Incident} {y : Store × EvaluationWalk} {M : Machine}

theorem staysSequential (ha : s.Attains root p n done (s', w)) (h : s₀.Synchronous s root) :
    (Machine.walking root p s' w).StaysSequential (s.Reaches root) := fun i ↦ by
  rw [← show _ = Machine.walking root p s' w from ha.comes, ← Function.iterate_add_apply]
  exact h.sequential (Nat.succ_ne_zero _)

theorem reaches (ha : s.Attains root p n done (s', w)) : ∀ x ∈ w.stack, s.Reaches root x := fun x hx ↦
  (ha.inSequence.linked x hx).2

theorem woven (ha : s.Attains root p n done (s', w)) (h : s₀.Synchronous s root) :
    ∃ H, Scene.Woven ⟨s', [⟨.promise root p, .here, w⟩], [], [], [], [], H⟩ := by
  obtain ⟨H, hwoven, -⟩ := (ha.staysSequential h).now.woven
  exact ⟨H, hwoven⟩

theorem embarks (ha : s.Attains root p n done (s', w)) (h : s₀.Synchronous s root) : s.Embarks s' w := by
  obtain ⟨H, hwoven⟩ := ha.woven h
  refine ⟨?_, fun f hf ↦ hwoven.valid.sound.mem_stack_of_mem_frames List.mem_cons_self hf,
    (hwoven.tours _ List.mem_cons_self).asks, fun x hx ↦ ?_⟩
  · have hechoes := h.echoes (n + 1)
    rwa [show _ = Machine.walking root p s' w from ha.comes] at hechoes
  · obtain ⟨r, hr, hst⟩ := hwoven.eager.evaluating hwoven.valid List.mem_cons_self hx
    have herror : r.evaluationError = none := by
      simpa using (hwoven.valid.sound.lawful x _ (outline_eq_some hr)).error (by simp [hst])
    exact (state?_eq hr).trans (by rw [hst, herror])

/-- What is on the stack has been entered. -/
theorem enters_of_stack (ha : s.Attains root p n done (s', w)) (h : s₀.Synchronous s root) (hx : x ∈ w.stack) :
    s.Enters root x := ⟨n + 1, by
  rw [ha.comes, status?_eq_map_state?]
  exact congrArg (Option.map (·.1)) ((ha.embarks h).evaluating x hx)⟩

/-- So has what the walk has executed. -/
theorem enters (ha : s.Attains root p n done (s', w)) (h : s₀.Synchronous s root) (hx : x ∈ done)
    (hlinked : s.status? x = some .linked) : s.Enters root x := by
  rcases ha.inSequence.reached x (.inr hx) hlinked with hmem | hover
  · exact ha.enters_of_stack h hmem
  · refine ha.entered x fun hsame ↦ ?_
    rw [status?_eq_map_state?, ← hsame, show Store.state? _ x = _ from hover] at hlinked
    contradiction

/-- What comes after, comes in the call. -/
theorem leads (ha : s.Attains root p n done (s', w)) (hl : (Machine.walking root p s' w).Leads l M) :
    ∃ n' > n, Machine.step^[n' + 1] (.start s (.evaluate root)) = M ∧
      Machine.incidents (n' + 1) (.start s (.evaluate root)) = done.map .begins ++ l := by
  obtain ⟨k, hstep, hincidents⟩ := hl
  have hcomes : _ = Machine.walking root p s' w := ha.comes
  refine ⟨n + (k + 1), Nat.lt_add_of_pos_right (Nat.succ_pos k), ?_, ?_⟩
  · rw [show n + (k + 1) + 1 = (k + 1) + (n + 1) by omega, Function.iterate_add_apply, hcomes, hstep]
  · rw [show n + (k + 1) + 1 = (n + 1) + (k + 1) by omega, Machine.incidents_add, ha.incidents, hcomes, hincidents]

/-- Only modules that are being evaluated come to be in another state. -/
theorem changes (ha : s.Attains root p n done (s', w)) (h : s₀.Synchronous s root) (hw : s'.Wends w l y)
    (hx : y.1.state? x ≠ s'.state? x) : y.1.status? x = some .evaluating ∨ s'.status? x = some .evaluating := by
  cases hw with
  | pass _ _ hresembles => exact absurd (hresembles.state x) hx
  | steps _ _ _ hstate _ => exact absurd (hstate x) hx
  | stay _ hresembles => exact absurd (hresembles.state x) hx
  | enter _ _ hstate _ =>
    have hsame := hstate x
    split at hsame
    · exact .inl (by rw [status?_eq_map_state?, show _ = some _ from hsame]; rfl)
    · exact absurd hsame hx
  | pop _ hpops hstate _ =>
    have hsame := hstate x
    split at hsame
    · next hmem =>
      have hstack : x ∈ w.stack := by
        rw [hpops.split]
        simp only [List.mem_append, List.mem_cons, List.not_mem_nil, or_false] at hmem ⊢
        exact hmem.imp_right .inl
      exact .inr (by rw [status?_eq_map_state?, (ha.embarks h).evaluating x hstack]; rfl)
    · exact absurd hsame hx

theorem goes (ha : s.Attains root p n done (s', w)) (h : s₀.Synchronous s root) (hw : s'.Wends w l y)
    (hl : (Machine.walking root p s' w).Leads l (Machine.walking root p y.1 y.2)) :
    ∃ n' > n, ∃ done', s.Attains root p n' done' y := by
  obtain ⟨more, hmore, hseq⟩ := ha.inSequence.wends h.poised (ha.embarks h) hw
  obtain ⟨n', hlt, hcomes, hincidents⟩ := ha.leads hl
  refine ⟨n', hlt, done ++ more, hcomes, by rw [hincidents, hmore, List.map_append], hseq, fun x hx ↦ ?_⟩
  by_cases hsame : y.1.state? x = s'.state? x
  · exact ha.entered x (hsame ▸ hx)
  · rcases ha.changes h hw hsame with hnow | hbefore
    · exact ⟨n' + 1, by rw [hcomes]; exact hnow⟩
    · exact ⟨n + 1, by rw [ha.comes]; exact hbefore⟩

/-- The call is not over. -/
theorem lt_of_result? (ha : s.Attains root p n done y) {k : ℕ}
    (hk : (Machine.step^[k] (.start s (.evaluate root))).result?.isSome) : n < k := by
  by_contra hle
  obtain ⟨r, hr⟩ := Option.isSome_iff_exists.1 hk
  obtain ⟨d, hd⟩ := Nat.exists_eq_add_of_le (not_lt.1 hle)
  have hcomes := ha.comes
  rw [show n + 1 = (d + 1) + k by omega, Function.iterate_add_apply,
    Function.iterate_fixed (Machine.step_of_result? hr)] at hcomes
  rw [hcomes] at hr
  contradiction

/-- In the end there is nothing left to go through, or the walk fails. -/
theorem ceases (ha : s.Attains root p n done (s', w)) (h : s₀.Synchronous s root) :
    ∃ n done s' w, s.Attains root p n done (s', w) ∧ Machine.Ceases root p s' w := by
  obtain ⟨k, hk⟩ := h.ends
  induction hleft : k - n using Nat.strong_induction_on generalizing n done s' w with
  | h left ih =>
    cases (ha.staysSequential h).fares ha.reaches with
    | wends hw hl =>
      obtain ⟨n', hlt, done', hnext⟩ := ha.goes h hw hl
      have hbefore := ha.lt_of_result? hk
      exact ih (k - n') (by omega) hnext rfl
    | founders hf hl => exact ⟨n, done, s', w, ha, .founders hf hl⟩
    | done hf hl => exact ⟨n, done, s', w, ha, .done hf hl⟩

end Store.Attains

theorem Store.Synchronous.attains (h : s₀.Synchronous s root) : ∃ p n s' w, s.Attains root p n [] (s', w) := by
  obtain ⟨p, s', ⟨n, hstep, hincidents⟩, hstate, hprogress⟩ := h.starts
  refine ⟨p, n, s', _, hstep, hincidents, .start h.linked hstate hprogress, fun x hx ↦ ⟨n + 1, ?_⟩⟩
  have hnow := hstate x
  split at hnow
  · rw [hstep, status?_eq_map_state?]
    exact congrArg (Option.map (·.1)) hnow
  · exact absurd hnow hx

/-! ### How it ends -/

/-- The promise belongs to the module, and the walk is through with the module last. -/
theorem Store.Attains.promised {n : ℕ} {done : List ModuleId} (ha : s.Attains root p n done (s', w))
    (h : s₀.Synchronous s root) : s'.capability? root = some p ∧ (w.frames ≠ [] → root ∈ w.stack) := by
  obtain ⟨H, hrun⟩ := Turns.run h.upright (h.busy (n + 1))
  have hserves : (Machine.walking root p s' w).Serves := ha.comes ▸ hrun.serves h.pristine
  obtain ⟨hcapability, hroot⟩ := hserves.serves.goals ⟨.promise root p, .here, w⟩ List.mem_cons_self root p rfl
  refine ⟨hcapability, fun hne ↦ ?_⟩
  have hpath : Tour.path ⟨.promise root p, .here, w⟩ = w.frames.map (·.module) := rfl
  rw [hpath] at hroot
  rcases hroot with hlast | ⟨hnil, -⟩
  · obtain ⟨f, hf, hfroot⟩ := List.mem_map.1 (List.mem_of_getLast? hlast)
    exact hfroot ▸ (ha.embarks h).mem_stack f hf
  · exact absurd (List.map_eq_nil_iff.1 hnil) hne

/-- When the call is over, the promise tells how the evaluation of the module ended. -/
theorem Store.Synchronous.settles (h : s₀.Synchronous s root) {n : ℕ} {M : Machine} {r : Result} {e : Option ErrorId}
    (hM : Machine.step^[n] (.start s (.evaluate root)) = M) (hr : M.result? = some r)
    (hcapability : M.store.capability? root = some p) (hstate : M.store.state? root = some (.evaluated, e)) :
    M.store.promise? p = some (e.elim .fulfilled .rejected) := by
  have hturns : Turns Machine.Solitary (.idle s₀) (.idle M.store) := (hM ▸ h.busy n).tail (.finish hr)
  obtain ⟨H, hrun⟩ := Turns.run h.upright hturns
  obtain ⟨-, hserves, -⟩ := hrun.serves h.pristine
  obtain ⟨htells, -⟩ := Store.Serves.nil_iff.1 hserves
  obtain ⟨q, hq, hp⟩ := capability?_eq_some.1 hcapability
  obtain ⟨hover, herror⟩ := Prod.mk.inj (Option.some.inj ((state?_eq hq).symm.trans hstate))
  have houtcome := htells.tells root q p hq hp not_false
  rw [SourceText.outcome?, if_pos hover, herror, outcome?] at houtcome
  obtain ⟨P, hP, hc⟩ := Option.bind_eq_some_iff.1 houtcome
  rw [hP]
  cases e <;> cases P <;> simp [Promise.completion?] at hc ⊢
  exact hc

/-- All that an evaluated module leads to has been evaluated, if none of it waits. -/
theorem Scene.Woven.evaluated {S : Scene} {R : ModuleId → Prop} (h : S.Woven) (hR : S.store.Secluded R)
    (hs : S.store.Sheltered R) (hroot : R root) (hover : S.store.state? root = some (.evaluated, none))
    (hx : S.store.Reaches root x) (hsource : (S.store.source? x).isSome) :
    S.store.state? x = some (.evaluated, none) := by
  obtain ⟨r, hr, hst, herror⟩ := Store.source_of_state? hover
  have hrepresented : (S.store.root? root).isSome := by
    rw [Store.root?_eq hr]
    exact h.represented root r hr (by rw [hst]; rfl) herror
  have hcomplete := h.composed.complete
  have hxroot := hcomplete.root_of_reaches hrepresented hx hsource
  obtain ⟨q, hq⟩ := Option.isSome_iff_exists.1 hsource
  rw [Store.root?_eq hq] at hxroot
  have hsettling := hcomplete.settling x q hq hxroot
  have hxR := hR.reaches hroot hx
  rw [Store.state?_eq hq, hs.well x q hxR hq hxroot]
  have hwaits : q.status ≠ .evaluatingAsync := fun hst ↦ (hs.pending x q hxR hq).2 <| by
    simpa using (h.valid.sound.lawful x _ (Store.outline_eq_some hq)).waiting (.inl (by simp [hst]))
  cases hst : q.status <;> simp [hst, Status.isSettling] at hsettling hwaits ⊢

namespace Store

/-- The call was through with all that it came to. -/
structure EndsWell (s : Store) (root : ModuleId) (n : ℕ) (M : Machine) (p : PromiseId) : Prop where
  passed : ∀ d ∈ s.evaluationOrder root, s.failure? d = none
  incidents : Machine.incidents n (.start s (.evaluate root)) = (s.evaluationOrder root).map .begins
  promise : M.store.promise? p = some .fulfilled
  evaluated : ∀ x, s.Reaches root x → (s.source? x).isSome → M.store.state? x = some (.evaluated, none)
  ran : ∀ x ∈ s.evaluationOrder root, s.isUnrun x = true → M.store.progress x = some (none, some (.ok ()))

/-- The call was through with some modules, and failed at the next one. -/
structure EndsAt (s : Store) (root : ModuleId) (n : ℕ) (M : Machine) (p : PromiseId) (done : List ModuleId)
    (d : ModuleId) (e : ErrorId) : Prop where
  order : ∃ rest, s.evaluationOrder root = done ++ d :: rest
  passed : ∀ x ∈ done, s.failure? x = none
  entered : ∀ x ∈ done, s.status? x = some .linked → s.Enters root x
  /-- The next module has failed before, or its body throws. -/
  incidents : s.failure? d = some e ∧ Machine.incidents n (.start s (.evaluate root)) = done.map .begins ∨
    s.failure? d = none ∧
      Machine.incidents n (.start s (.evaluate root)) = done.map .begins ++ [.begins d, .throws d e]
  promise : M.store.promise? p = some (.rejected e)
  /-- The component of the module is complete. -/
  complete : ∀ x, s.Enters root x → (∀ y, Mutual s.Requests x y → y ∈ done) →
    M.store.state? x = some (.evaluated, none)
  incomplete : ∀ x y, s.Enters root x → Mutual s.Requests x y → y ∉ done →
    M.store.state? x = some (.evaluated, some e)

/-- What a walk leaves that has nothing left to go through. -/
theorem Attains.endsWell {n : ℕ} {done : List ModuleId} (ha : s.Attains root p n done (s', w))
    (h : s₀.Synchronous s root) (hf : w.frames = [])
    (hl : (Machine.walking root p s' w).Leads [] ⟨s'.finishEvaluation root p, .give (.promise p), []⟩) :
    ∃ n M, Machine.step^[n] (.start s (.evaluate root)) = M ∧ M.result? = some (.promise p) ∧
      (∀ x, ¬s.Enters root x → M.store.state? x = s.state? x) ∧ s.EndsWell root n M p := by
  obtain ⟨n', -, hM, hincidents⟩ := ha.leads hl
  obtain ⟨H, hwoven⟩ := ha.woven h
  have hseq := ha.inSequence
  have hmodules : (s'.finishEvaluation root p).modules = s'.modules := modules_finish s' (.promise root p)
  have hresembles : s'.Resembles (s'.finishEvaluation root p) := resembles_of_modules hmodules
  have horder : s.evaluationOrder root = done := by
    have horder := hseq.order
    rwa [hf, List.map_nil, remaining, List.append_nil] at horder
  have hstack : w.stack = [] := by
    have hrooted := hwoven.valid.sound.rooted _ List.mem_cons_self
    have hpath : Tour.path ⟨.promise root p, .here, w⟩ = w.frames.map (·.module) := rfl
    rw [hpath, hf] at hrooted
    exact List.getLast?_eq_none_iff.1 hrooted
  have hroot : s'.state? root = some (.evaluated, none) :=
    (hseq.reached root (.inl rfl) h.linked).resolve_left fun hmem ↦ absurd (hstack ▸ hmem) List.not_mem_nil
  refine ⟨n' + 1, _, hM, rfl, fun x hx ↦ ?_, ?_, ?_, ?_, fun x hx hsource ↦ ?_, fun x hx hunrun ↦ ?_⟩
  · rw [hresembles.state]
    by_contra hne
    exact hx (ha.entered x hne)
  · rw [horder]
    exact hseq.passed
  · rw [horder, hincidents, List.append_nil]
  · refine h.settles (e := none) hM rfl ?_ ((hresembles.state root).trans hroot)
    exact (capability?_of_source (fun x ↦ source?_congr hmodules x) root).trans (ha.promised h).1
  · have hnow := (ha.staysSequential h).now
    have hechoes := (ha.embarks h).echoes
    have hreaches := (hechoes.leads h.poised.rounded (linked_of_status? h.linked).old).2 hx
    obtain ⟨r, hr⟩ := Option.isSome_iff_exists.1 hsource
    obtain ⟨r', hr', -⟩ := source?_of_entries hechoes.isSome hechoes.entries hechoes.exports hr
    exact (hresembles.state x).trans
      (hwoven.evaluated hnow.secluded hnow.sheltered .refl hroot hreaches (Option.isSome_of_mem hr'))
  · rw [hresembles.progress]
    exact hseq.ran x (horder ▸ hx) hunrun

/-- What a walk leaves that fails. -/
theorem Attains.endsAt {n : ℕ} {done : List ModuleId} {l : List Incident} {e : ErrorId} {s'' : Store}
    (ha : s.Attains root p n done (s', w)) (h : s₀.Synchronous s root) (hf : s'.Founders w l d e s'')
    (hl : (Machine.walking root p s' w).Leads l ⟨(s''.failModules w.stack e).reject p e, .give (.promise p), []⟩) :
    ∃ n M, Machine.step^[n] (.start s (.evaluate root)) = M ∧ M.result? = some (.promise p) ∧
      (∀ x, ¬s.Enters root x → M.store.state? x = s.state? x) ∧ s.EndsAt root n M p done d e := by
  obtain ⟨n', -, hM, hincidents⟩ := ha.leads hl
  obtain ⟨H, hwoven⟩ := ha.woven h
  have hseq := ha.inSequence
  have hembarks := ha.embarks h
  obtain ⟨horder, hfailed, hsame⟩ := hseq.founders h.poised hembarks hf
  have hstack := (hwoven.tours _ List.mem_cons_self).stack
  have hsource : ∀ x, ((s''.failModules w.stack e).reject p e).source? x =
      if x ∈ w.stack then (s''.source? x).map (SourceText.fail e) else s''.source? x :=
    (EvaluationGoal.promise root p).source?_fail s'' hstack.nodup e
  have hstate : ∀ x, ((s''.failModules w.stack e).reject p e).state? x =
      if x ∈ w.stack then some (.evaluated, some e) else s'.state? x := fun x ↦ by
    rw [state?, hsource]
    split
    · next hx =>
      obtain ⟨r, hr, -⟩ := source_of_state? ((hsame x).trans (hembarks.evaluating x hx))
      rw [hr]
      rfl
    · exact hsame x
  have hroot : root ∈ w.stack := (ha.promised h).2 <| by
    cases hf with
    | met ht _ | steps ht _ _ _ _ _ =>
      obtain ⟨_, _, _, _, hframes, -⟩ := ht
      simp [hframes]
    | execute hframes _ _ => simp [hframes]
  have hcapability : ((s''.failModules w.stack e).reject p e).capability? root = some p := by
    have hbefore := (hf.capability? root).trans (ha.promised h).1
    rw [capability?, hsource, if_pos hroot]
    obtain ⟨r, hr, hp⟩ := capability?_eq_some.1 hbefore
    rw [hr]
    exact hp
  -- a module that was entered is on the stack, or its component is complete
  have hentered : ∀ x, s.Enters root x → x ∈ w.stack ∨
      x ∉ w.stack ∧ s'.state? x = some (.evaluated, none) ∧ ∀ y, Mutual s.Requests x y → y ∈ done := fun x hx ↦ by
    by_cases hmem : x ∈ w.stack
    · exact .inl hmem
    · refine .inr ⟨hmem, ?_⟩
      refine ((hseq.state x hmem).resolve_left fun hkept ↦ h.changes hx (n := n' + 1) (by rw [hM]; rfl) ?_).2
      rw [hM, status?_eq_map_state?, status?_eq_map_state?, hstate, if_neg hmem]
      exact congrArg _ hkept
  refine ⟨n' + 1, _, hM, rfl, fun x hx ↦ ?_, horder, hseq.passed, fun x hx ↦ ha.enters h hx, ?_, ?_,
    fun x hx hall ↦ ?_, fun x y hx hxy hy ↦ ?_⟩
  · have hnot : x ∉ w.stack := fun hmem ↦ hx (ha.enters_of_stack h hmem)
    refine (hstate x).trans ((if_neg hnot).trans ?_)
    by_contra hne
    exact hx (ha.entered x hne)
  · rw [hincidents]
    exact hfailed.imp (.imp_right fun hl ↦ by rw [hl, List.append_nil]) (.imp_right fun hl ↦ by rw [hl])
  · exact h.settles (e := some e) hM rfl hcapability ((hstate root).trans (if_pos hroot))
  · rw [hstate]
    rcases hentered x hx with hmem | ⟨hnot, hover, -⟩
    · obtain ⟨y, hxy, hy⟩ := hseq.exists_mutual_not_mem h.poised hembarks hstack hmem
      exact absurd (hall y hxy) hy
    · rw [if_neg hnot, hover]
  · rw [hstate]
    rcases hentered x hx with hmem | ⟨-, -, hall⟩
    · rw [if_pos hmem]
    · exact absurd (hall y hxy) hy

end Store

/-- A call for a linked module to be evaluated, where none of the modules that it leads to awaits, and bodies call
nothing: it runs bodies in the order of the plain traversal, as far as the first one that throws, or the first
module that has failed before, and returns a promise that is settled. If it came to the end of the order, the
promise is fulfilled, and all modules that the given one leads to have been evaluated without an error. Otherwise
the promise is rejected with the error, and so have failed the modules that were entered and whose components
are not complete. Modules that were not entered are as they were. -/
theorem synchronous_evaluation_in_order (hs : s₀.Unread) (hp : s₀.Pristine) (he : s₀.EvaluationOnly)
    (hturns : Turns Machine.Solitary (.idle s₀) (.idle s)) (hroot : s.status? root = some .linked)
    (hawaits : ∀ x, s.Reaches root x → (s.entries x).awaits = false) (hcall : s.CallsNothing root) :
    ∃ n M p, Machine.step^[n] (.start s (.evaluate root)) = M ∧ M.result? = some (.promise p) ∧
      (∀ x, ¬s.Enters root x → M.store.state? x = s.state? x) ∧
      (s.EndsWell root n M p ∨ ∃ done d e, s.EndsAt root n M p done d e) := by
  have h : s₀.Synchronous s root := ⟨hs, hp, he, hturns, hroot, hawaits, hcall⟩
  obtain ⟨p, n, s', w, hstarts⟩ := h.attains
  obtain ⟨n, done, s', w, ha, hceases⟩ := hstarts.ceases h
  cases hceases with
  | done hf hl =>
    obtain ⟨n, M, hM, hr, hrest, hends⟩ := ha.endsWell h hf hl
    exact ⟨n, M, p, hM, hr, hrest, .inl hends⟩
  | @founders l d e s'' hf hl =>
    obtain ⟨n, M, hM, hr, hrest, hends⟩ := ha.endsAt h hf hl
    exact ⟨n, M, p, hM, hr, hrest, .inr ⟨done, d, e, hends⟩⟩

/-! ### A graph with a circle, a synthetic module and one that fails -/

/-- A check that nothing is called. -/
def Machine.calmNow (M : Machine) : Bool :=
  match M.control with
  | .run (.link _) | .run (.evaluate _) | .run (.force _) => false
  | _ => true

theorem Store.callsNothing_of_calmNow {n : ℕ}
    (h : ∀ i ≤ n, (Machine.step^[i + 1] (.start s (.evaluate root))).calmNow = true)
    (hr : (Machine.step^[n + 1] (.start s (.evaluate root))).result?.isSome) : s.CallsNothing root := by
  intro i
  have hi := Machine.forall_iterate_of_result? (M := (Machine.start s (.evaluate root)).step)
    (P := fun M ↦ M.calmNow = true) h hr i
  generalize Machine.step^[i] (Machine.start s (.evaluate root)).step = M at hi
  refine ⟨fun m hm ↦ ?_, fun m hm ↦ ?_, fun m hm ↦ ?_⟩ <;> simp [Machine.calmNow, hm] at hi

/-- A module that imports modules of the given names, and takes the steps when it is executed. -/
def Module.acting (names : List String) (body : List Step) : Module where
  content := .sourceText
    { entries := Entries.ofBody true
        (names.map fun name ↦ .declaration (.imports [] { specifier := name }))
      body := body }

/-- With such modules, and synthetic ones whose steps have not been run, nothing has happened yet. -/
theorem Store.unread_of_acting (hs : ∀ r ∈ s.modules.toList, (∃ names body, r = .acting names body) ∨
      ∃ steps, r = { content := .synthetic { steps := some steps } })
    (hl : s.loadings = #[]) (hp : s.promises = #[]) (hj : s.jobs = []) (hstage : s.stage.suspended = []) :
    s.Unread ∧ s.Pristine := by
  have hmodule : ∀ {m r}, s.module? m = some r → (∃ names body, r = .acting names body) ∨
      ∃ steps, r = { content := .synthetic { steps := some steps } } := fun {m r} hr ↦ by
    obtain ⟨hlt, rfl⟩ := Array.getElem?_eq_some_iff.1 hr
    exact hs _ (Array.mem_toList_iff.2 (Array.getElem_mem hlt))
  have hsource : ∀ {m r}, s.source? m = some r → ∃ (names : List String) (body : List Step),
      r = { entries := Entries.ofBody true
              (names.map fun name ↦ .declaration (.imports [] { specifier := name }))
            body := body } := fun {m r} hr ↦ by
    unfold source? at hr
    split at hr
    · next hm =>
      rcases hmodule hm with ⟨names, body, heq⟩ | ⟨steps, heq⟩
      · cases heq
        exact ⟨names, body, (Option.some.inj hr).symm⟩
      · cases heq
    · contradiction
  have hsynthetic : ∀ {m r}, s.synthetic? m = some r → ∃ steps, r = { steps := some steps } := fun {m r} hr ↦ by
    unfold synthetic? at hr
    split at hr
    · next hm =>
      rcases hmodule hm with ⟨names, body, heq⟩ | ⟨steps, heq⟩
      · cases heq
      · cases heq
        exact ⟨steps, (Option.some.inj hr).symm⟩
    · contradiction
  refine ⟨⟨fun m r hr ↦ ?_, fun m r hr ↦ ?_, hl, hp, hj⟩, ⟨fun m r hr ↦ ?_, fun m r hr ↦ ?_, hp, hj⟩, hstage, hl⟩
  · obtain ⟨names, body, rfl⟩ := hsource hr
    exact ⟨rfl, rfl, rfl, rfl⟩
  · obtain ⟨names, body, rfl⟩ := hsource hr
    refine ⟨_, _, rfl, fun d hd q hq ↦ ?_⟩
    obtain ⟨d', hd', heq⟩ := List.mem_filterMap.1 hd
    obtain ⟨name, -, rfl⟩ := List.mem_map.1 hd'
    obtain rfl := Option.some.inj heq
    rw [← Option.some.inj hq]
    exact List.nodup_nil
  · obtain ⟨names, body, rfl⟩ := hsource hr
    exact ⟨.inl rfl, rfl, rfl, rfl, rfl, rfl, rfl⟩
  · obtain ⟨steps, rfl⟩ := hsynthetic hr
    exact ⟨rfl, rfl⟩

/-- Modules of which a circle, a synthetic one, and one that has been evaluated belong to the first, and
another circle, with one that fails, to the last. -/
def sundryGraph : Store where
  modules := #[.acting ["circle", "lib", "old"] [], .acting ["main"] [],
    { content := .synthetic { steps := some [] } }, .acting [] [], .acting [] [.throw .error "broken"],
    .acting ["new", "broken"] [], .acting ["late"] []]
  stage := { modules := [("main", ⟨0⟩), ("circle", ⟨1⟩), ("lib", ⟨2⟩), ("old", ⟨3⟩), ("broken", ⟨4⟩), ("late", ⟨5⟩),
    ("new", ⟨6⟩)] }

def sundryGraph.linked : Store :=
  [Task.load ⟨0⟩ none, .load ⟨5⟩ none, .link ⟨0⟩, .link ⟨5⟩, .evaluate ⟨3⟩, .evaluate ⟨4⟩].foldl
    (fun s t ↦ ((Machine.start s t).serve 40).store) sundryGraph

theorem sundryGraph.turns_linked : Turns Machine.Solitary (.idle sundryGraph) (.idle linked) := by
  have hcheck := Machine.solitary_of_solitaryNow
  have hload := Turns.served (a := .load ⟨0⟩ none) (M := .start sundryGraph (.load ⟨0⟩ none)) (n := 40) .refl hcheck
    rfl (by decide +kernel) (by decide +kernel)
  have hload' := Turns.served (a := .load ⟨5⟩ none) (n := 40) hload hcheck rfl (by decide +kernel) (by decide +kernel)
  have hlink := Turns.served (a := .link ⟨0⟩) (n := 40) hload' hcheck rfl (by decide +kernel) (by decide +kernel)
  have hlink' := Turns.served (a := .link ⟨5⟩) (n := 40) hlink hcheck rfl (by decide +kernel) (by decide +kernel)
  have hold := Turns.served (a := .evaluate ⟨3⟩) (n := 40) hlink' hcheck rfl (by decide +kernel) (by decide +kernel)
  exact Turns.served (a := .evaluate ⟨4⟩) (n := 40) hold hcheck rfl (by decide +kernel) (by decide +kernel)

/-- How the promise was settled that the call returned. -/
def Machine.outcome? (M : Machine) : Option Completion :=
  match M.result? with
  | some (.promise p) => M.store.outcome? p
  | _ => none

theorem synchronous_evaluation_in_order_sundryGraph :
    sundryGraph.Unread ∧ sundryGraph.Pristine ∧ sundryGraph.EvaluationOnly ∧
      ∃ s, Turns Machine.Solitary (.idle sundryGraph) (.idle s) ∧
        (∀ root x, s.Reaches root x → (s.entries x).awaits = false) ∧
        (s.status? ⟨0⟩ = some .linked ∧ s.CallsNothing ⟨0⟩ ∧ ∃ n M p, s.EndsWell ⟨0⟩ n M p ∧
          Machine.incidents n (.start s (.evaluate ⟨0⟩)) = [.begins ⟨1⟩, .begins ⟨2⟩, .begins ⟨0⟩]) ∧
        s.status? ⟨5⟩ = some .linked ∧ s.CallsNothing ⟨5⟩ ∧ ∃ n M p done d e, s.EndsAt ⟨5⟩ n M p done d e ∧
          Machine.incidents n (.start s (.evaluate ⟨5⟩)) = [.begins ⟨6⟩] ∧
          M.store.state? ⟨6⟩ = some (.evaluated, some e) := by
  obtain ⟨hunread, hpristine⟩ := Store.unread_of_acting (s := sundryGraph) (by
    simp only [sundryGraph, List.forall_mem_cons, List.not_mem_nil, false_implies, implies_true, and_true]
    exact ⟨.inl ⟨_, _, rfl⟩, .inl ⟨_, _, rfl⟩, .inr ⟨_, rfl⟩, .inl ⟨_, _, rfl⟩, .inl ⟨_, _, rfl⟩, .inl ⟨_, _, rfl⟩,
      .inl ⟨_, _, rfl⟩⟩) rfl rfl rfl rfl
  have honly : sundryGraph.EvaluationOnly := Store.evaluationOnly_of_all (by decide +kernel)
  have hturns := sundryGraph.turns_linked
  have hawaits : ∀ root x, sundryGraph.linked.Reaches root x → (sundryGraph.linked.entries x).awaits = false := by
    rintro root ⟨i⟩ -
    have hall : ∀ i < 7, (sundryGraph.linked.entries ⟨i⟩).awaits = false := by decide +kernel
    rcases lt_or_ge i 7 with hi | hi
    · exact hall i hi
    · have hnone : sundryGraph.linked.source? ⟨i⟩ = none := by
        by_contra hsome
        have hlt := Store.index_lt_of_source (Option.isSome_iff_ne_none.2 hsome)
        have hsize : sundryGraph.linked.modules.size = 7 := by decide +kernel
        exact absurd (hsize ▸ hlt) (Nat.not_lt.2 hi)
      rw [Store.entries, hnone]
      rfl
  have hlinked : sundryGraph.linked.status? ⟨0⟩ = some .linked := by decide +kernel
  have hcalls : sundryGraph.linked.CallsNothing ⟨0⟩ :=
    Store.callsNothing_of_calmNow (n := 20) (by decide +kernel) (by decide +kernel)
  have hlinked' : sundryGraph.linked.status? ⟨5⟩ = some .linked := by decide +kernel
  have hcalls' : sundryGraph.linked.CallsNothing ⟨5⟩ :=
    Store.callsNothing_of_calmNow (n := 20) (by decide +kernel) (by decide +kernel)
  refine ⟨hunread, hpristine, honly, _, hturns, hawaits, ⟨hlinked, hcalls, ?_⟩, hlinked', hcalls', ?_⟩
  · obtain ⟨n, M, p, hM, hr, -, hends⟩ :=
      synchronous_evaluation_in_order hunread hpristine honly hturns hlinked (hawaits _) hcalls
    have hover : ∃ r, (Machine.step^[20] (.start sundryGraph.linked (.evaluate ⟨0⟩))).result? = some r :=
      Option.isSome_iff_exists.1 (by decide +kernel)
    obtain ⟨r, hover⟩ := hover
    have hlater := Machine.iterate_eq_of_result? (hM ▸ hr) hover
    have houtcome : (Machine.step^[20] (.start sundryGraph.linked (.evaluate ⟨0⟩))).outcome? = some (.ok ()) := by
      decide +kernel
    rw [← hlater, hM, Machine.outcome?, hr] at houtcome
    refine ⟨n, M, p, hends.resolve_right ?_, ?_⟩
    · rintro ⟨done, d, e, hends⟩
      simp [Store.outcome?, hends.promise, Promise.completion?] at houtcome
    · rw [Machine.incidents_eq_of_result? (hM ▸ hr) hover]
      decide +kernel
  · obtain ⟨n, M, p, hM, hr, -, hends⟩ :=
      synchronous_evaluation_in_order hunread hpristine honly hturns hlinked' (hawaits _) hcalls'
    have hover : ∃ r, (Machine.step^[20] (.start sundryGraph.linked (.evaluate ⟨5⟩))).result? = some r :=
      Option.isSome_iff_exists.1 (by decide +kernel)
    obtain ⟨r, hover⟩ := hover
    have hlater := Machine.iterate_eq_of_result? (hM ▸ hr) hover
    have houtcome : (Machine.step^[20] (.start sundryGraph.linked (.evaluate ⟨5⟩))).outcome? = some (.error ⟨0⟩) := by
      decide +kernel
    have hstate : (Machine.step^[20] (.start sundryGraph.linked (.evaluate ⟨5⟩))).store.state? ⟨6⟩ =
        some (.evaluated, some ⟨0⟩) := by decide +kernel
    rw [← hlater, hM] at hstate
    rw [← hlater, hM, Machine.outcome?, hr] at houtcome
    obtain ⟨done, d, e, hends⟩ := hends.resolve_left fun hends ↦ by
      simp [Store.outcome?, hends.promise, Promise.completion?] at houtcome
    obtain rfl : e = ⟨0⟩ := by simpa [Store.outcome?, hends.promise, Promise.completion?] using houtcome
    refine ⟨n, M, p, done, d, _, hends, ?_, hstate⟩
    rw [Machine.incidents_eq_of_result? (hM ▸ hr) hover]
    decide +kernel

end EcmaModules
