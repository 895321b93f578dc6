import EcmaModules.Proofs.Popping

/-!
# Modules that never wait

A module waits if it awaits, or if it requests one that waits. So if none of the modules that a module leads
to awaits, then none of them ever waits, whatever else is going on in the graph. Such a module fails while a
walk is at it, or is on the stack, and at no other time. So once its component is complete, it has been
evaluated without an error.

What is kept is about a set of modules that leads to nothing outside. What a module leads to grows while it is
being loaded, so the set is fixed in the end, and what is known of it then holds of what was known before.
-/

namespace EcmaModules

open EvaluationWalk (await leadsBack detach push)

namespace Store

/-- The modules of the set lead to nothing outside of it, and none of them awaits. -/
structure Secluded (s : Store) (R : ModuleId → Prop) : Prop where
  closed : ∀ x y, R x → s.Requests x y → R y
  awaits : ∀ x r, R x → s.source? x = some r → r.entries.awaits = false

/-- None of the modules waits, and none has failed whose component is complete. -/
structure Sheltered (s : Store) (R : ModuleId → Prop) : Prop where
  pending : ∀ x r, R x → s.source? x = some r → r.pendingAsync = 0 ∧ r.asyncState ≠ .pending
  root : ∀ x c, R x → s.root? x = some c → R c
  well : ∀ x r, R x → s.source? x = some r → r.cycleRoot.isSome → r.evaluationError = none

end Store

/-- The module does not come to wait, and if its component is complete, it has not failed. -/
structure SourceText.Spares (r r' : SourceText) : Prop where
  pending : r.pendingAsync = 0 → r'.pendingAsync = 0
  async : r.asyncState ≠ .pending → r'.asyncState ≠ .pending
  cycleRoot : r'.cycleRoot = r.cycleRoot
  error : r.cycleRoot.isSome → r'.evaluationError = r.evaluationError

theorem SourceText.Spares.refl (r : SourceText) : r.Spares r := ⟨id, id, rfl, fun _ ↦ rfl⟩

theorem SourceText.Spares.of_outline {r r' : SourceText} (h : r'.outline = r.outline) : r.Spares r' := by
  have hpending : r'.pendingAsync = r.pendingAsync := (congrArg (·.pendingAsync) h :)
  have hasync : r'.asyncState = r.asyncState := (congrArg (·.asyncState) h :)
  refine ⟨hpending.trans, fun hr ↦ hasync ▸ hr, (congrArg (·.cycleRoot) h :), fun _ ↦ ?_⟩
  exact (congrArg (·.evaluationError) h :)

namespace Store

variable {s s' : Store} {R : ModuleId → Prop} {m d : ModuleId}

theorem Sheltered.keep (h : s.Sheltered R)
    (hs : ∀ x r', R x → s'.source? x = some r' → ∃ r, s.source? x = some r ∧ r.Spares r') :
    s'.Sheltered R where
  pending x r' hx hr' := by
    obtain ⟨r, hr, hspares⟩ := hs x r' hx hr'
    obtain ⟨hpending, hasync⟩ := h.pending x r hx hr
    exact ⟨hspares.pending hpending, hspares.async hasync⟩
  root x c hx hc := by
    obtain ⟨r', hr', -⟩ := source_of_root (Option.isSome_of_mem hc)
    obtain ⟨r, hr, hspares⟩ := hs x r' hx hr'
    refine h.root x c hx ?_
    rw [root?_eq hr, ← hspares.cycleRoot, ← root?_eq hr', hc]
  well x r' hx hr' hroot := by
    obtain ⟨r, hr, hspares⟩ := hs x r' hx hr'
    rw [hspares.cycleRoot] at hroot
    exact (hspares.error hroot).trans (h.well x r hx hr hroot)

theorem Sheltered.each (h : s.Sheltered R) (hs : s.Each SourceText.Spares s') : s'.Sheltered R :=
  h.keep fun _ _ _ hr' ↦ hs.before hr'

/-- A module outside of the set may change in any way. -/
theorem Sheltered.modifySource (h : s.Sheltered R) {f : SourceText → SourceText}
    (hf : ∀ r : SourceText, R m → r.Spares (f r)) : (s.modifySource m f).Sheltered R := by
  refine h.keep fun x r' hx hr' ↦ ?_
  rw [source?_modifySource] at hr'
  split at hr'
  · next heq =>
    obtain ⟨r, hr, rfl⟩ := Option.map_eq_some_iff.1 hr'
    exact ⟨r, hr, hf r (heq ▸ hx)⟩
  · exact ⟨r', hr', .refl r'⟩

theorem Sheltered.cycleRoot (h : s.Sheltered R) (hd : R d) : R (s.cycleRoot d) := by
  rw [Store.cycleRoot, ← Store.root?]
  rcases hroot : s.root? d with _ | c
  · exact hd
  · exact h.root d c hd hroot

/-- No module comes to wait for one of the set, since that does not wait itself. -/
theorem Sheltered.await_eq (h : s.Sheltered R) (hd : R d) (m : ModuleId) : EvaluationWalk.await s m d = s := by
  rcases EvaluationWalk.await_cases s m d with heq | ⟨r, q, -, hq, hasync, -, -⟩
  · exact heq
  · exact absurd hasync (h.pending d q hd hq).2

theorem Sheltered.await (h : s.Sheltered R) (hd : R m → R d) : (await s m d).Sheltered R := by
  rcases EvaluationWalk.await_cases s m d with heq | ⟨r, q, -, hq, hasync, -, heq⟩
  · rwa [heq]
  · rw [heq]
    refine (h.modifySource fun r hm ↦ absurd hasync (h.pending d q (hd hm) hq).2).modifySource fun _ _ ↦ ?_
    exact ⟨id, id, rfl, fun _ ↦ rfl⟩

theorem Sheltered.lowerAncestor (h : s.Sheltered R) (i : Nat) : (s.lowerAncestor m i).Sheltered R :=
  h.modifySource fun _ _ ↦ ⟨id, id, rfl, fun _ ↦ rfl⟩

/-- When modules fail with another one, those of the set whose components are complete are over. -/
theorem Sheltered.fails (h : s.Sheltered R) {T : List Tour} {F X G : List ModuleId} {H : List Event}
    (hs : Sound s.outline T F X G H) (hc : s.Complete) {e : ErrorId} (hf : EcmaModules.Fails e s s') :
    s'.Sheltered R := by
  refine h.keep fun x r' hx hr' ↦ ?_
  rcases hf x with hsame | ⟨r, hr, hstatus, hfailed⟩
  · exact ⟨r', hsame ▸ hr', .refl r'⟩
  · obtain rfl := Option.some.inj (hfailed.symm.trans hr')
    refine ⟨r, hr, fun hp ↦ hp, fun _ ↦ nofun, rfl, fun hroot ↦ ?_⟩
    have hwaits : r.status = .evaluatingAsync := by
      have := hc.settling x r hr hroot
      cases hst : r.status <;> simp [hst, Status.isSettling] at this hstatus ⊢
    refine absurd ?_ (h.pending x r hx hr).2
    simpa using (hs.lawful x _ (outline_eq_some hr)).waiting (.inl (by simp [hwaits]))

theorem Sheltered.finishModule (h : s.Sheltered R) : (s.finishModule m).Sheltered R := by
  refine h.keep fun x r' _ hr' ↦ ?_
  rw [source?_finishModule] at hr'
  split at hr'
  · obtain ⟨r, hr, rfl⟩ := Option.map_eq_some_iff.1 hr'
    exact ⟨r, hr, id, fun _ ↦ nofun, rfl, fun _ ↦ rfl⟩
  · exact ⟨r', hr', .refl r'⟩

theorem Sheltered.startAsync (h : s.Sheltered R) (hm : ¬R m) : (s.startAsync m).2.Sheltered R := by
  have hheld : (s.holdModule m).Sheltered R := h.modifySource fun r hx ↦ absurd hx hm
  exact hheld.each (Each.of_modules .refl (modules_react _ _ _))

end Store

/-- What a walk is back at a module from, the module leads to. -/
theorem Tour.Woven.leads {s : Store} {goal : EvaluationGoal} {st : Stance} {w : EvaluationWalk}
    {f : EvaluationFrame} {rest : List EvaluationFrame} {d : ModuleId} (h : Tour.Woven s ⟨goal, st, w⟩)
    (hf : w.frames = f :: rest) (hst : st = .back d ∨ st = .through d) : s.Reaches f.module d := by
  rcases hst with rfl | rfl
  · exact h.opens _ _ ⟨.inr rfl, f, rest, hf, rfl⟩
  · have hpath : Tour.path ⟨goal, .through d, w⟩ = d :: f.module :: rest.map (·.module) := by
      simp [Tour.path, Stance.top, hf]
    have hstack := h.stack
    rw [hpath] at hstack
    have hearlier := (List.pairwise_cons.1 hstack.path_sorted).1 f.module List.mem_cons_self
    exact hstack.above _ (List.mem_cons_of_mem _ List.mem_cons_self) d (hstack.mem d List.mem_cons_self)
      hearlier.le

theorem Store.Secluded.reaches {s : Store} {R : ModuleId → Prop} (h : s.Secluded R) {x y : ModuleId}
    (hx : R x) (hxy : s.Reaches x y) : R y := by
  induction hxy with
  | refl => exact hx
  | tail _ hstep ih => exact h.closed _ _ ih hstep

/-! ## Moves -/

section Moves

variable {mode : Mode} {S S' : Scene} {R : ModuleId → Prop}

/-- What led to nothing outside after a move, did so before. -/
theorem Move.secluded (hmove : Move mode S S') (h : S.Woven) (hR : S'.store.Secluded R) :
    S.store.Secluded R := by
  have hunsearched := hmove.unsearched h.valid h.eager
  refine ⟨fun x y hx hxy ↦ hR.closed x y hx ?_, fun x r hx hr ↦ ?_⟩
  · rcases hmove.dwells h.valid h.eager h.represented with hs | ⟨_, _, _, _, _, _, hT, ⟨hstack, -, hroot⟩, -, hstore⟩
    · obtain ⟨q, hq, hy⟩ := hxy
      exact ⟨q, hs.entries x ▸ hq, hs.grows x q y hy⟩
    · obtain ⟨s, T, F, X, G, J, H⟩ := S
      obtain rfl : T = _ := hT
      have hcloses := h.composed.closes h.valid h.eager hstack hroot
      obtain ⟨q, hq, hy⟩ := hxy
      rw [hstore]
      exact ⟨q, (hcloses.entries_eq x).symm ▸ hq, (hcloses.imported?_eq x q).trans hy⟩
  · obtain ⟨r', hr', hentries, -⟩ := hunsearched.after hr
    rw [← hentries]
    exact hR.awaits x r' hx hr'

/-- In every move, modules that lead to nothing that awaits stay as they are, as far as waiting goes. -/
theorem Move.sheltered (hmove : Move mode S S') (h : S.Woven) (hR : S.store.Secluded R)
    (hs : S.store.Sheltered R) : S'.store.Sheltered R := by
  have hv := h.valid.sound
  have hcomplete := h.composed.complete
  have hwalked : ∀ τ ∈ S.tours, ∀ x ∈ τ.walk.stack, ∃ r, S.store.source? x = some r ∧ r.status = .evaluating :=
    fun τ hτ x ↦ h.eager.evaluating h.valid hτ
  have htours := h.tours
  have heager := h.eager
  induction hmove with
  | aside ha _ => exact hs.each ((Store.Each.of_outline ha.outline).mono fun _ _ ↦ .of_outline)
  | @evaluate s m root H _ _ _ _ =>
    exact hs.each (Store.Each.modifySource .refl s.newPromise.2 root fun _ _ ↦ ⟨id, id, rfl, fun _ ↦ rfl⟩)
  | @pass s goal w t T F X G J H d r hd ha _ =>
    split
    · next ht =>
      unfold detach
      split
      · next hover =>
        -- the module stands for itself, and has no error
        have hover : r.status = .evaluated := by simpa [Store.status?, hd] using (Bool.and_eq_true_iff.1 hover).1
        have herror : r.evaluationError = none := by
          rcases he : r.evaluationError with _ | e
          · rfl
          · simp [SourceText.arrival, hover, he] at ha
        have hdetached : ∀ x r', (s.modifySource d fun r ↦ { r with cycleRoot := some d }).source? x = some r' →
            s.source? x = some r' ∨ x = d ∧ r' = { r with cycleRoot := some d } := fun x r' hr' ↦ by
          rw [Store.source?_modifySource] at hr'
          split at hr'
          · next heq =>
            subst heq
            rw [hd] at hr'
            exact .inr ⟨rfl, (Option.some.inj hr').symm⟩
          · exact .inl hr'
        refine ⟨fun x r' hx hr' ↦ ?_, fun x c hx hc ↦ ?_, fun x r' hx hr' hroot ↦ ?_⟩
        · rcases hdetached x r' hr' with hr' | ⟨rfl, rfl⟩
          · exact hs.pending x r' hx hr'
          · exact hs.pending x r hx hd
        · obtain ⟨r', hr', -⟩ := Store.source_of_root (Option.isSome_of_mem hc)
          rw [Store.root?_eq hr'] at hc
          rcases hdetached x r' hr' with hr' | ⟨rfl, rfl⟩
          · exact hs.root x c hx ((Store.root?_eq hr').trans hc)
          · exact Option.some.inj hc ▸ hx
        · rcases hdetached x r' hr' with hr' | ⟨rfl, rfl⟩
          · exact hs.well x r' hx hr' hroot
          · exact herror
      · exact hs
    · exact hs
  | @enter s goal w t t' T F X G J H d r hd ha _ _ =>
    refine hs.modifySource fun q _ ↦ ⟨fun hp ↦ ?_, fun _ ↦ by rintro ⟨⟩, rfl, fun _ ↦ rfl⟩
    simp [SourceText.entered, hp]
  | @leaveBack s goal st w f rest T F X G J H d r q hst hf hr hq hlead =>
    refine (hs.lowerAncestor _).await fun hx ↦ hR.reaches hx ?_
    exact (htours _ List.mem_cons_self).leads hf (hst.imp_right And.left)
  | @leaveSearched s goal st w f rest T F X G J H d r q hst hf hr hq hlead hqs =>
    have := heager.status d q hq
    simp [hqs, Status.isSearched] at this
  | @leaveOff s goal w f rest T F X G J H d r q hf hr hq hlead hqs herr =>
    exact hs.await fun hx ↦
      hs.cycleRoot (hR.reaches hx ((htours _ List.mem_cons_self).leads hf (.inl rfl)))
  | @hold s goal w m rest T F X G J H r _ hr hpos =>
    refine hs.modifySource fun _ hm ↦ ?_
    exact absurd (hs.pending m r hm hr).1 hpos.ne'
  | @runAsync s goal w m rest T F X G J H r hf hr h0 hw =>
    refine hs.startAsync fun hm ↦ ?_
    simp [hR.awaits m r hm hr] at hw
  | search hf =>
    have := ((heager.tours _ List.mem_cons_self).frames _ (hf ▸ List.mem_cons_self)).1
    contradiction
  | @pop s goal w m above below T F X G J H hstack _ hroot =>
    have hcloses := h.composed.closes h.valid heager hstack hroot
    have hpops := hcloses.popsComponent (htours _ List.mem_cons_self)
    have hmember : ∀ x r', (s.completeMembers m (above ++ [m])).source? x = some r' →
        s.source? x = some r' ∨ x ∈ above ++ [m] ∧ ∃ r, s.source? x = some r ∧ r' = r.complete m :=
      fun x r' hr' ↦ by
        rw [hcloses.source? x] at hr'
        split at hr'
        · next hx =>
          obtain ⟨r, hr, rfl⟩ := Option.map_eq_some_iff.1 hr'
          exact .inr ⟨hx, r, hr, rfl⟩
        · exact .inl hr'
    refine ⟨fun x r' hx hr' ↦ ?_, fun x c hx hc ↦ ?_, fun x r' hx hr' hroot ↦ ?_⟩
    · rcases hmember x r' hr' with hr' | ⟨-, r, hr, rfl⟩
      · exact hs.pending x r' hx hr'
      · exact hs.pending x r hx hr
    · rw [hcloses.root?_eq] at hc
      split at hc
      · next hmem =>
        obtain rfl := Option.some.inj hc
        exact hR.reaches hx ((hpops.component x).1 hmem).2
      · exact hs.root x c hx hc
    · rcases hmember x r' hr' with hr' | ⟨hmem, r, hr, rfl⟩
      · exact hs.well x r' hx hr' hroot
      · obtain ⟨r', hr', hst⟩ := hcloses.evaluating x (hcloses.mem_stack hmem)
        obtain rfl := Option.some.inj (hr.symm.trans hr')
        have herror : r.evaluationError = none := by
          simpa using (hv.lawful x _ (Store.outline_eq_some hr)).error (by simp [hst])
        exact herror
  | done _ => exact hs.each ((Store.Each.of_outline (outline_finish _ _)).mono fun _ _ ↦ .of_outline)
  | @fail s goal st w T F X G J H e _ _ _ =>
    refine hs.keep fun x r' hx hr' ↦ ?_
    rw [goal.source?_fail s (List.nodup_append.1 hv.stacked).1] at hr'
    split at hr'
    · next hmem =>
      obtain ⟨r, hr, rfl⟩ := Option.map_eq_some_iff.1 hr'
      obtain ⟨q, hq, hst⟩ := hwalked _ List.mem_cons_self x hmem
      obtain rfl := Option.some.inj (hr.symm.trans hq)
      refine ⟨r, hr, id, fun ha ↦ ?_, rfl, fun hroot ↦ ?_⟩
      · simp [SourceText.fail, ha]
      · have := hcomplete.settling x r hr hroot
        rw [hst] at this
        contradiction
    · exact ⟨r', hr', .refl r'⟩
  | take _ => exact hs.each (Store.Each.of_modules .refl rfl)
  | fulfill _ _ => exact hs.finishModule
  | @reject s m e H _ => exact hs.fails hv hcomplete (Store.fails_rejectModule s m e)
  | lessen _ _ _ _ =>
    exact hs.modifySource fun _ _ ↦ ⟨fun hp ↦ by simp [hp], id, rfl, fun _ ↦ rfl⟩
  | release _ _ _ _ =>
    exact hs.modifySource fun _ _ ↦ ⟨fun hp ↦ by simp [hp], id, rfl, fun _ ↦ rfl⟩
  | @pastSearched s m r F H hm hw hst =>
    have := heager.status m r hm
    simp [hst, Status.isSearched] at this
  | @freeAsync s m r F H hm _ hw =>
    refine hs.startAsync fun hx ↦ ?_
    simp [hR.awaits m r hx hm] at hw
  | freed => exact hs.finishModule
  | @freedError s m e F H _ => exact hs.fails hv hcomplete (Store.fails_rejectModule s m e)
  | _ => exact hs

theorem Moves.sheltered (hmoves : Moves mode S S') (hmode : ¬mode.nests ∧ ¬mode.skips) (h : S.Woven)
    (hR : S'.store.Secluded R) (hs : S.store.Secluded R → S.store.Sheltered R) :
    S.store.Secluded R ∧ S'.store.Sheltered R := by
  induction hmoves with
  | refl => exact ⟨hR, hs hR⟩
  | tail hmoves hmove ih =>
    have hwoven := Moves.weave hmoves hmode h
    obtain ⟨hfirst, hmid⟩ := ih (hmove.secluded hwoven hR)
    exact ⟨hfirst, hmove.sheltered hwoven (hmove.secluded hwoven hR) hmid⟩

end Moves

/-! ## Runs -/

theorem Store.Fresh.sheltered {s : Store} (h : s.Fresh) (R : ModuleId → Prop) : s.Sheltered R where
  pending x r _ hr := by
    obtain ⟨-, -, -, hasync, -, -, hpending⟩ := h.source x r hr
    exact ⟨hpending, by simp [hasync]⟩
  root x c _ hc := by
    obtain ⟨r, hr, hroot⟩ := source_of_root (Option.isSome_of_mem hc)
    rw [(h.source x r hr).2.2.1] at hroot
    contradiction
  well x r _ hr _ := (h.source x r hr).2.1

/-- Modules that lead to nothing that awaits have never waited, and if their components are complete, none of
them has failed. -/
theorem Store.Secluded.sheltered {s₀ : Store} {st : State} {R : ModuleId → Prop} (hR : st.store.Secluded R)
    (hs : (State.idle s₀).Interlinked) (hf : s₀.Fresh) (he : s₀.EvaluationOnly)
    (h : Turns Machine.Solitary (.idle s₀) st) : st.store.Sheltered R := by
  induction h with
  | refl => exact hf.sheltered R
  | @tail st st' hturns hturn ih =>
    obtain ⟨H, hwoven, hfit⟩ := Scene.Woven.turns hs hf he hturns
    have hinterlinked := hs.turns (Turns.mono (fun _ _ hP ↦ hP.toLinksApart) hturns)
    obtain ⟨H', hadvance⟩ := hturn.advance H
    have hgrants : ∀ a M, st = .busy a M → M.Solitary M.step → M.Grants .solitary M.step := by
      rintro a M rfl hP
      exact hP.grants hinterlinked hwoven
    obtain ⟨hmoves, -⟩ := hadvance.moves hgrants hwoven.valid hfit
    have hR' : (st'.scene H').store.Secluded R := by rwa [State.store_scene]
    have hbefore : (st.scene H).store.Secluded R → (st.scene H).store.Sheltered R := by
      rw [State.store_scene]
      exact ih
    have hafter := (hmoves.sheltered ⟨not_false, not_false⟩ hwoven hR' hbefore).2
    rwa [State.store_scene] at hafter

end EcmaModules
