import EcmaModules.Proofs.Telling

/-!
# Every step keeps promises telling

The steps of a machine one after the other: what they settle, what they give to others to settle, and
what the promises of evaluations tell then. Two more things are needed for that. The module that
stands for a component is one with source text, so whoever asks for its evaluation gets a promise
that tells something. And no walk waits for a synthetic module before it has come to any other.
-/

namespace EcmaModules

/-! ## What evaluation itself settles -/

variable {E : Fund} {s s' : Store}

namespace Store

namespace Upholds

theorem of_duties (h : s.Trusts E) (hd : s'.duties = s.duties) : s.Upholds E s' :=
  of_deals (.of_duties h hd)

theorem resolveCapability (h : s.Trusts E) (m : ModuleId) : s.Upholds E (s.resolveCapability m) := by
  unfold Store.resolveCapability
  split
  · exact settle h _ _
  · exact refl h

theorem rejectCapability (h : s.Trusts E) (m : ModuleId) (e : ErrorId) :
    s.Upholds E (s.rejectCapability m e) := by
  unfold Store.rejectCapability
  split
  · exact settle h _ _
  · exact refl h

theorem finishModule (h : s.Trusts E) (m : ModuleId) : s.Upholds E (s.finishModule m) := by
  have hover : s.Upholds E ((s.settleAsync m).setStatus m .evaluated) := of_duties h rfl
  exact hover.trans (resolveCapability hover.trusts m)

theorem finishSearched (h : s.Trusts E) (m : ModuleId) : s.Upholds E (s.finishSearched m) := by
  have hover : s.Upholds E ((s.setStatus m .asyncSubgraphsEvaluated).settleAsync m) := of_duties h rfl
  exact hover.trans (resolveCapability hover.trusts m)

theorem rejectFrom (h : s.Trusts E) (depth : Nat) (m : ModuleId) (e : ErrorId) :
    s.Upholds E (s.rejectFrom depth m e) := by
  induction depth generalizing s m with
  | zero => exact refl h
  | succ depth ih =>
    unfold Store.rejectFrom
    split
    · exact refl h
    have hfold : ∀ (ms : List ModuleId) {s : Store}, s.Trusts E →
        s.Upholds E (ms.foldl (fun s m ↦ s.rejectFrom depth m e) s) := by
      intro ms
      induction ms with
      | nil => exact refl
      | cons d ms ihms => exact fun h ↦ (ih h d).trans (ihms (ih h d).trusts)
    have hmarked : s.Upholds E (s.markFailed m e) := of_duties h rfl
    have hspread := fun ms ↦ hmarked.trans (hfold ms hmarked.trusts)
    exact (hspread _).trans (rejectCapability (hspread _).trusts m e)

theorem fulfillModule (h : s.Trusts E) (m : ModuleId) : s.Upholds E (s.fulfillModule m).1 := by
  unfold Store.fulfillModule
  split
  · exact refl h
  · have hfinish := finishModule h m
    refine hfinish.trans (of_duties hfinish.trusts ?_)
    exact gatherFrom_of_lessen (R := fun s s' ↦ s'.duties = s.duties) (fun _ ↦ rfl)
      (fun _ _ _ h h' ↦ h'.trans h) (fun _ _ ↦ rfl) _ _ m []

theorem continueFree (h : s.Trusts E) (m : ModuleId) :
    s.Upholds E (s.continueFree m).2 ∧
      ∀ capability, (s.continueFree m).1 = .execute capability →
        (s.continueFree m).2.Lends E capability.toList := by
  unfold Store.continueFree
  split
  · exact ⟨refl h, nofun⟩
  · split
    · exact ⟨refl h, nofun⟩
    · split
      · obtain ⟨hdeals, hlends⟩ := s.startAsync_deals h m
        refine ⟨of_deals hdeals, fun capability hc ↦ ?_⟩
        obtain rfl := FreeStep.execute.inj hc
        exact hlends
      · split
        · exact ⟨finishSearched h m, nofun⟩
        · refine ⟨refl h, fun capability hc ↦ ?_⟩
          obtain rfl := FreeStep.execute.inj hc
          exact nofun

theorem finishFree (h : s.Trusts E) (m : ModuleId) (capability : Option PromiseId)
    (c : Completion) : s.Upholds E (s.finishFree m capability c) := by
  rcases capability with _ | p <;> rcases c with e | ⟨⟩
  · exact rejectFrom h _ m e
  · rw [s.finishFree_eq_finishModule]
    exact finishModule h m
  · exact settle h p _
  · exact refl h

end Upholds

end Store

/-- What a step of a walk leads to. -/
theorem EvaluationStep.next_upholds {step : EvaluationStep} (h : s.Trusts E)
    (hlends : s.Lends E step.targets) (goal : EvaluationGoal) :
    s.Upholds E (step.next s goal).1 ∧
      (step.next s goal).1.Lends E (step.next s goal).2.targets := by
  cases step with
  | done =>
    cases goal with
    | promise root p =>
      refine ⟨?_, List.forall_mem_nil _⟩
      simp only [next, EvaluationGoal.finish, Store.finishEvaluation]
      split
      · exact .settle h _ _
      · exact .refl h
    | force m =>
      refine ⟨.of_duties h ?_, List.forall_mem_nil _⟩
      simp only [next, EvaluationGoal.finish, Store.finishForced]
      split <;> rfl
  | failed e left =>
    have hfail : s.Upholds E (s.failModules left e) := .of_duties h (s.duties_failModules left e)
    cases goal with
    | promise root p => exact ⟨hfail.trans (.settle hfail.trusts _ _), List.forall_mem_nil _⟩
    | force m => exact ⟨hfail, List.forall_mem_nil _⟩
  | go w => exact ⟨.refl h, List.forall_mem_nil _⟩
  | synthetic m w => exact ⟨.refl h, List.forall_mem_nil _⟩
  | execute m capability w =>
    refine ⟨.refl h, ?_⟩
    change s.Lends E (capability.toList ++ capability.toList)
    exact List.forall_mem_append.2 ⟨hlends, hlends⟩

/-! ## Who stands for a component -/

namespace Store

/-- Whatever stands for a module is a module with source text. -/
def Rooted (s : Store) : Prop :=
  ∀ x r c, s.source? x = some r → r.cycleRoot = some c → (s.source? c).isSome

namespace Rooted

theorem of_each (h : s.Rooted) (hs : s.Each (fun r r' ↦ ∀ c, r'.cycleRoot = some c →
    r.cycleRoot = some c ∨ (s.source? c).isSome) s') : s'.Rooted := by
  intro x r' c hr' hc
  obtain ⟨r, hr, hrel⟩ := Each.before hs hr'
  have hsome : (s.source? c).isSome := (hrel c hc).elim (h x r c hr) id
  obtain ⟨q, hq⟩ := Option.isSome_iff_exists.1 hsome
  obtain ⟨q', hq', -⟩ := Each.after hs hq
  simp [hq']

/-- No module comes to be represented by another one. -/
theorem keep (h : s.Rooted) (hs : s.Each (fun r r' ↦ r'.cycleRoot = r.cycleRoot) s') : s'.Rooted :=
  h.of_each (Each.mono hs fun _ _ heq _ hc ↦ .inl (heq ▸ hc))

theorem modifySource (h : s.Rooted) (m : ModuleId) {f : SourceText → SourceText}
    (hf : ∀ r, (f r).cycleRoot = r.cycleRoot) : (s.modifySource m f).Rooted :=
  h.keep (Each.modifySource (R := fun r r' ↦ r'.cycleRoot = r.cycleRoot) (fun _ ↦ rfl) s m
    fun r _ ↦ hf r)

theorem of_modules (h : s.Rooted) (hs : s'.modules = s.modules) : s'.Rooted :=
  h.keep (Each.of_modules (R := fun r r' ↦ r'.cycleRoot = r.cycleRoot) (fun _ ↦ rfl) hs)

theorem of_outline (h : s.Rooted) (hs : s'.outline = s.outline) : s'.Rooted :=
  h.keep ((Each.of_outline hs).mono fun _ _ hr ↦ (congrArg (·.cycleRoot) hr :))

theorem await (h : s.Rooted) (m d : ModuleId) : (EvaluationWalk.await s m d).Rooted := by
  rcases EvaluationWalk.await_cases s m d with heq | ⟨_, _, _, _, _, _, heq⟩
  · rwa [heq]
  · rw [heq]
    refine modifySource (modifySource h m ?_) d ?_
    all_goals exact fun _ ↦ rfl

theorem detach (h : s.Rooted) (w : EvaluationWalk) {d : ModuleId} (hd : (s.source? d).isSome) :
    (EvaluationWalk.detach s w d).Rooted := by
  unfold EvaluationWalk.detach
  split
  · refine h.of_each (Each.modifySource (fun _ _ ↦ .inl) s d fun _ _ c hc ↦ .inr ?_)
    rwa [← Option.some.inj hc]
  · exact h

theorem completeMembers (h : s.Rooted) {root : ModuleId} (hroot : (s.source? root).isSome)
    (ms : List ModuleId) : (s.completeMembers root ms).Rooted := by
  induction ms generalizing s with
  | nil => exact h
  | cons m ms ih =>
    have heach : s.Each (fun _ r' ↦ r'.cycleRoot = some root ∨ True)
        (EvaluationWalk.completeMember s root m) :=
      Each.modifySource (fun _ ↦ .inr trivial) s m fun _ _ ↦ .inl rfl
    refine ih (s := EvaluationWalk.completeMember s root m) ?_ ?_
    · refine h.of_each (Each.modifySource (fun _ _ ↦ .inl) s m fun _ _ c hc ↦ .inr ?_)
      rwa [← Option.some.inj hc]
    · obtain ⟨q, hq⟩ := Option.isSome_iff_exists.1 hroot
      obtain ⟨q', hq', -⟩ := heach.after hq
      simp [hq']

theorem startAsync (h : s.Rooted) (m : ModuleId) : (s.startAsync m).2.Rooted := by
  have hhold : (s.holdModule m).Rooted := h.modifySource m fun _ ↦ rfl
  exact hhold.of_modules (modules_react _ _ _)

theorem finishModule (h : s.Rooted) (m : ModuleId) : (s.finishModule m).Rooted := by
  have hover : ((s.settleAsync m).setStatus m .evaluated).Rooted :=
    modifySource (s := s.settleAsync m) (h.modifySource m fun _ ↦ rfl) m fun _ ↦ rfl
  exact hover.of_modules (modules_resolveCapability _ m)

theorem finishSearched (h : s.Rooted) (m : ModuleId) : (s.finishSearched m).Rooted := by
  have hover : ((s.setStatus m .asyncSubgraphsEvaluated).settleAsync m).Rooted :=
    modifySource (s := s.setStatus m .asyncSubgraphsEvaluated) (h.modifySource m fun _ ↦ rfl) m
      fun _ ↦ rfl
  exact hover.of_modules (modules_resolveCapability _ m)

theorem of_fails {e : ErrorId} (h : s.Rooted) (hs : Fails e s s') : s'.Rooted :=
  h.keep fun x ↦ by
    rcases hs x with heq | ⟨r, hr, -, heq⟩
    · rw [heq]
      exact Each.refl (R := fun r r' ↦ r'.cycleRoot = r.cycleRoot) (fun _ ↦ rfl) s x
    · rw [hr, heq]
      exact .some rfl

/-- The module that an evaluation starts at has source text. -/
theorem evaluationRoot (h : s.Rooted) {m : ModuleId} (hm : (s.source? m).isSome) :
    (s.source? (s.evaluationRoot m)).isSome := by
  unfold Store.evaluationRoot
  split
  · obtain ⟨r, hr⟩ := Option.isSome_iff_exists.1 hm
    rcases hc : r.cycleRoot with _ | c
    · simp [cycleRoot, hr, hc]
    · simpa [cycleRoot, hr, hc] using h m r c hr hc
  · exact hm

end Rooted

theorem Fresh.rooted (h : s.Fresh) : s.Rooted := fun x r c hr hc ↦ by
  simp [(h.source x r hr).2.2.1] at hc

end Store

/-! ### Steps of walks -/

namespace Store.Rooted

open EvaluationWalk (leave back push completeMember popExecuted popSearched concludeExecuted
  concludeSearched closesComponent execute arrive)

variable {root m d : ModuleId} {w : EvaluationWalk}

theorem leave (h : s.Rooted) (m d : ModuleId) : (leave s m d).2.Rooted := by
  unfold EvaluationWalk.leave
  split
  · split
    · refine Rooted.await ?_ m d
      exact h.modifySource m fun _ ↦ rfl
    · split
      · exact h.await m d
      · dsimp only
        split
        · exact h
        · exact h.await m _
  · exact h

theorem back (h : s.Rooted) (w : EvaluationWalk) (d : ModuleId) : (back s w d).1.Rooted := by
  unfold EvaluationWalk.back
  split
  · exact h
  · next f _ _ =>
    have hleave := h.leave f.module d
    split <;> next heq => rwa [heq] at hleave

theorem completeMember (h : s.Rooted) (hroot : (s.source? root).isSome) (m : ModuleId) :
    (completeMember s root m).Rooted ∧ ((completeMember s root m).source? root).isSome := by
  have hrooted := h.completeMembers hroot [m]
  obtain ⟨r, hr⟩ := Option.isSome_iff_exists.1 hroot
  obtain ⟨r', hr', -⟩ := Each.after (Treads.completeMember s root m) hr
  exact ⟨hrooted, by simp [hr']⟩

theorem popExecuted (h : s.Rooted) (hroot : (s.source? root).isSome) (stack : List ModuleId) :
    (popExecuted s root stack).1.Rooted := by
  induction stack generalizing s with
  | nil => exact h
  | cons m stack ih =>
    obtain ⟨hrooted, hsome⟩ := h.completeMember hroot m
    rw [EvaluationWalk.popExecuted]
    split
    · exact hrooted
    · exact ih hrooted hsome

theorem popSearched (h : s.Rooted) (hroot : (s.source? root).isSome) (stack : List ModuleId) :
    (popSearched s root stack).1.Rooted := by
  induction stack generalizing s with
  | nil => exact h
  | cons m stack ih =>
    obtain ⟨hrooted, hsome⟩ := h.completeMember hroot m
    rw [EvaluationWalk.popSearched]
    split
    · exact hrooted
    · exact ih hrooted hsome

/-- A module whose component is complete has source text. -/
theorem of_closes (h : closesComponent s w m = true) : (s.source? m).isSome := by
  have hroot : s.isComponentRoot m = true := (Bool.and_eq_true_iff.1 h).1
  rcases hm : s.source? m with _ | r
  · simp [isComponentRoot, hm] at hroot
  · rfl

theorem concludeExecuted (h : s.Rooted) (w : EvaluationWalk) (m : ModuleId) :
    (concludeExecuted s w m).1.Rooted := by
  unfold EvaluationWalk.concludeExecuted
  split
  · next hclose => exact (h.popExecuted (of_closes hclose) w.stack).back _ m
  · exact h.back w m

theorem concludeSearched (h : s.Rooted) (w : EvaluationWalk) (m : ModuleId) :
    (concludeSearched s w m).1.Rooted := by
  have hhold : (s.holdSearched m).Rooted := h.modifySource m fun r ↦ by split <;> rfl
  rw [EvaluationWalk.concludeSearched_eq]
  split
  · next hclose => exact (hhold.popSearched (of_closes hclose) w.stack).back _ m
  · exact hhold.back w m

theorem execute (h : s.Rooted) (w : EvaluationWalk) (m : ModuleId) : (execute s w m).1.Rooted := by
  unfold EvaluationWalk.execute
  split
  · exact h
  · split
    · refine Rooted.concludeExecuted ?_ w m
      exact h.modifySource m fun _ ↦ rfl
    · split
      · exact h.startAsync m
      · exact h

theorem executed (h : s.Rooted) (w : EvaluationWalk) (m : ModuleId)
    (capability : Option PromiseId) (c : Completion) : (w.executed s m capability c).1.Rooted := by
  unfold EvaluationWalk.executed
  split
  · exact h.concludeExecuted w m
  · exact (h.of_modules (modules_settle _ _ _)).concludeExecuted w m
  · exact h

theorem passed (h : s.Rooted) (w : EvaluationWalk) (c : Completion) : (w.passed s c).1.Rooted := by
  unfold EvaluationWalk.passed
  split <;> exact h

theorem arrive (h : s.Rooted) (w : EvaluationWalk) (m : ModuleId) (t : Traversal) :
    (arrive s w m t).1.Rooted := by
  unfold EvaluationWalk.arrive
  split
  · exact h
  next r hr =>
  split
  · exact h
  · refine Rooted.back ?_ w m
    split
    · exact h.detach w (by simp [hr])
    · exact h
  · exact h.modifySource m fun _ ↦ rfl

theorem advance (h : s.Rooted) (w : EvaluationWalk) : (w.advance s).1.Rooted := by
  unfold EvaluationWalk.advance
  split
  · exact h
  · exact h.execute _ _
  · exact h.concludeSearched _ _
  · dsimp only
    split
    · exact h.arrive _ _ _
    · exact h

theorem failModules (h : s.Rooted) (stack : List ModuleId) (e : ErrorId) :
    (s.failModules stack e).Rooted := by
  suffices ∀ (stack : List ModuleId) {s : Store}, s.Rooted → (s.failModules stack e).Rooted from
    this stack h
  intro stack
  induction stack with
  | nil => exact id
  | cons m stack ih => exact fun h ↦ ih (h.modifySource m fun _ ↦ rfl)

/-- What comes after a step of a walk. -/
theorem next (h : s.Rooted) (goal : EvaluationGoal) (step : EvaluationStep) :
    (step.next s goal).1.Rooted := by
  cases step with
  | done => exact h.of_outline (outline_finish _ _)
  | failed e left => exact (h.failModules left e).of_outline (outline_fail s left e goal)
  | _ => exact h

theorem newCapability (h : s.Rooted) (root : ModuleId) : (s.newCapability root).2.Rooted := by
  have hpromise : s.newPromise.2.Rooted := h.of_modules rfl
  exact hpromise.modifySource root fun _ ↦ rfl

theorem fulfillModule (h : s.Rooted) (m : ModuleId) : (s.fulfillModule m).1.Rooted := by
  unfold Store.fulfillModule
  split
  · exact h
  · exact gatherFrom_of_lessen (R := fun s s' ↦ s.Rooted → s'.Rooted) (fun _ ↦ id)
      (fun _ _ _ h h' ↦ h' ∘ h) (fun s p hs ↦ hs.modifySource p fun _ ↦ rfl) _ _ m []
      (h.finishModule m)

theorem continueFree (h : s.Rooted) (m : ModuleId) : (s.continueFree m).2.Rooted := by
  unfold Store.continueFree
  split
  · exact h
  · split
    · exact h
    · split
      · exact h.startAsync m
      · split
        · exact h.finishSearched m
        · exact h

theorem finishFree (h : s.Rooted) (m : ModuleId) (capability : Option PromiseId)
    (c : Completion) : (s.finishFree m capability c).Rooted := by
  rcases capability with _ | p <;> rcases c with e | ⟨⟩
  · exact h.of_fails (fails_rejectModule s m e)
  · rw [s.finishFree_eq_finishModule]
    exact h.finishModule m
  · exact h.of_modules (modules_settle _ _ _)
  · exact h

end Store.Rooted

/-! ## Steps of walks -/

namespace Store

variable {root x : ModuleId} {p : PromiseId} {τ : Tour} {T : List Tour} {stack : List ModuleId}

theorem lateIn_singleton (hτ : τ.goal = .promise root p) :
    LateIn [τ] x ↔ x = root ∧ τ.path = [] := by
  refine ⟨?_, ?_⟩
  · rintro ⟨τ', hτ', q, hg, hnil⟩
    obtain rfl := List.mem_singleton.1 hτ'
    exact ⟨(EvaluationGoal.promise.inj (hτ.symm.trans hg)).1.symm, hnil⟩
  · rintro ⟨rfl, hnil⟩
    exact ⟨τ, List.mem_cons_self, p, hτ, hnil⟩

theorem lateIn_nil_eq : LateIn [] = fun _ ↦ False :=
  funext fun x ↦ eq_false (Expects.lateIn_nil x)

/-- While a walk is under way that tells a promise, only the module that it started at may be late. -/
theorem Serves.expects (h : s.Serves [τ]) (hτ : τ.goal = .promise root p)
    (hroot : τ.path = [] ∨ s.Origin root) : s.Expects root p := by
  refine ⟨h.tells.congr fun x r hr _ ↦ ?_, (h.goals τ List.mem_cons_self root p hτ).1,
    fun x r hr hsome ↦ ?_⟩
  · rw [lateIn_singleton hτ]
    rcases hroot with hnil | ⟨q, hq, hs, -⟩
    · exact .inl (and_iff_left hnil).symm
    · by_cases hx : x = root
      · obtain rfl := Option.some.inj (hq.symm.trans (hx ▸ hr))
        exact .inr (SourceText.outcome?_of_ne (by rw [hs]; exact nofun))
      · exact .inl (iff_of_false hx fun hx' ↦ hx hx'.1)
  · obtain ⟨q, hq⟩ := Option.isSome_iff_exists.1 hsome
    refine (h.seats x r q hr hq).imp id ?_
    rintro ⟨τ', hτ', hg, -⟩
    obtain rfl := List.mem_singleton.1 hτ'
    exact (EvaluationGoal.promise.inj (hτ.symm.trans hg)).1.symm

/-- The walk takes a step. -/
theorem Expects.tread (h : s.Expects root p) (htreads : s.Treads s') (hkeeps : s.KeepsPledges s') :
    s'.Expects root p := by
  refine ⟨h.tells.change htreads.capability? hkeeps fun x r r' hx hr hsome hr' ↦ ?_,
    (htreads.capability? root).trans h.capability, fun x r' hr' hsome ↦ ?_⟩
  · obtain ⟨q, hq, hrel⟩ := Each.after htreads hr
    obtain rfl := Option.some.inj (hr'.symm.trans hq)
    have hs := (h.seats x r hr hsome).resolve_right hx
    simp only [SourceText.outcome?, hrel.settling hs, hrel.evaluationError]
  · obtain ⟨r, hr, hrel⟩ := Each.before htreads hr'
    exact (h.seats x r hr (hrel.capability ▸ hsome)).imp (fun hs ↦ (hrel.settling hs).symm ▸ hs) id

theorem SettlesWell.tread (h : s.SettlesWell x) (htreads : s.Treads s') : s'.SettlesWell x := by
  obtain ⟨r, hr, hs, he⟩ := h
  obtain ⟨r', hr', hrel⟩ := Each.after htreads hr
  exact ⟨r', hr', (hrel.settling hs).symm ▸ hs, hrel.evaluationError.trans he⟩

theorem Origin.outcome? (h : s.Origin x) {r : SourceText} (hr : s.source? x = some r) :
    r.outcome? = none := by
  obtain ⟨q, hq, hs, -⟩ := h
  obtain rfl := Option.some.inj (hq.symm.trans hr)
  exact SourceText.outcome?_of_ne (by rw [hs]; exact nofun)

/-- A step of a walk that tells a promise. -/
theorem Serves.step_promise {y : Store × EvaluationStep} (h : s.Serves [τ])
    (hτ : τ.goal = .promise root p) (hbears : s.Bears τ.path stack) (htreads : s.Treads y.1)
    (hcomes : s.Comes stack y) (hstays : y.2.Stays τ.path) (hkeeps : s.KeepsPledges y.1)
    (hnil : τ.path = [] → ∀ e left, y.2 ≠ .failed e left)
    (hleft : ∀ e left, y.2 = .failed e left → left ⊆ stack)
    (halone : ∀ x ∈ stack, (s.capability? x).isSome → x = root) (hupright : s.Upright) :
    (y.2.next y.1 (.promise root p)).1.Serves (y.2.next y.1 (.promise root p)).2.tours := by
  obtain ⟨s', step⟩ := y
  have hplace := (h.goals τ List.mem_cons_self root p hτ).2
  have horigin : τ.path.getLast? = some root → s.Origin root ∧ root ∈ stack := hbears.origin
  have hbefore : s.Expects root p :=
    h.expects hτ (hplace.symm.imp And.left fun hlast ↦ (horigin hlast).1)
  refine (hbefore.tread htreads hkeeps).next (fun e left hstep ↦ ?_) fun hgo ↦ ?_
  · subst hstep
    have hlast : left.getLast? = τ.path.getLast? := hstays
    have hroot := hplace.resolve_right fun hn ↦ hnil hn.1 e left rfl
    refine ⟨fun x hx hsome ↦ ?_, .inl (List.mem_of_getLast? (hlast.trans hroot))⟩
    rw [htreads.capability?] at hsome
    exact halone x (hleft e left rfl hx) hsome
  · have hpath : step.path = [] ∨ step.path.getLast? = τ.path.getLast? := by
      cases step with
      | failed e left => exact absurd rfl (hgo e left)
      | _ => exact hstays
    have hbears' : s'.Bears step.path step.stack := hcomes.bears hgo
    have hempty : τ.path = [] → step.path = [] := fun hn ↦ by
      rcases hpath with hnil' | heq
      · exact hnil'
      · rw [hn] at heq
        exact List.getLast?_eq_none_iff.1 heq
    rcases hplace with hlast | ⟨hn, hwell⟩
    · rcases hpath with hnil' | heq
      · -- the walk has come to the end of its path, and nothing is left on the stack
        refine .inl ⟨hnil', ?_⟩
        obtain ⟨⟨r, hr, hs, -⟩, hmem⟩ := horigin hlast
        obtain ⟨r', hr', hrel⟩ := Each.after htreads hr
        have herror := hupright root r hr (by rw [hs]; exact nofun)
        refine ⟨r', hr', (hrel.evaluating hs).resolve_left fun hs' ↦ ?_,
          hrel.evaluationError.trans herror⟩
        have hstack : step.stack = [] := hbears'.stack_eq_nil hnil'
        rcases hcomes.shifts.underway root ⟨r', hr', by rw [hs']; rfl⟩ with hin | ⟨-, hout⟩
        · rw [hstack] at hin
          exact nomatch hin
        · exact hout hmem
      · refine .inr ⟨heq.trans hlast, fun r hr ↦ ?_⟩
        exact ((hbears'.origin (heq.trans hlast)).1).outcome? hr
    · exact .inl ⟨hempty hn, hwell.tread htreads⟩

/-- A step of a walk that reading from a namespace started. -/
theorem Serves.step_force {y : Store × EvaluationStep} (h : s.Serves T) (htreads : s.Treads y.1)
    (hcomes : s.Comes stack y) (hkeeps : s.KeepsPledges y.1)
    (hleft : ∀ e left, y.2 = .failed e left → left ⊆ stack)
    (halone : ∀ x ∈ stack, s.capability? x = none)
    (hbelow : ∀ τ ∈ T, ∀ o, τ.path.getLast? = some o → s.Origin o ∧ o ∉ stack) (m : ModuleId) :
    (y.2.next y.1 (.force m)).1.Serves ((y.2.next y.1 (.force m)).2.tours ++ T) := by
  have hon : y.1.Serves T := h.keep htreads hkeeps fun τ hτ o hlast r hr ↦ by
    obtain ⟨ho, hout⟩ := hbelow τ hτ o hlast
    have hne : ∀ {s : Store}, s.Origin o → ∀ r, s.source? o = some r → r.status ≠ .evaluated := by
      rintro s ⟨q, hq, hs, -⟩ r hr
      rw [← Option.some.inj (hq.symm.trans hr), hs]
      exact nofun
    exact ⟨hne ho r hr, hne (hcomes.shifts.origin o ho hout).1⟩
  exact hon.next_force m fun e left hstep x hx ↦
    (htreads.capability? x).trans (halone x (hleft e left hstep hx))

/-! ### Starting -/

theorem capability?_newCapability_of_isSome (hroot : (s.source? root).isSome) (x : ModuleId) :
    (s.newCapability root).2.capability? x =
      if x = root then some (s.newCapability root).1 else s.capability? x := by
  obtain ⟨r, hr⟩ := Option.isSome_iff_exists.1 hroot
  rw [capability?_newCapability]
  split
  · next hx => rw [hx, hr]; rfl
  · rfl

/-- The promise of an evaluation that starts is nobody else's to settle. -/
theorem Trusts.newCapability (h : s.Trusts s.Unpledged) (hroot : (s.source? root).isSome) :
    (s.newCapability root).2.Trusts (s.newCapability root).2.Unpledged := by
  have hnew : s.promise? (s.newCapability root).1 = none := promise?_addPromise_fst s (.pending [])
  have hself : (s.newCapability root).2.promise? (s.newCapability root).1 = some (.pending []) :=
    promise?_addPromise_self s _
  have hunpledged : ∀ p, s.Unpledged p → p ≠ (s.newCapability root).1 →
      (s.newCapability root).2.Unpledged p := fun p hp hne x hx ↦ by
    rw [capability?_newCapability_of_isSome hroot] at hx
    split at hx
    · exact hne (Option.some.inj hx).symm
    · exact hp x hx
  have hold : ∀ p, (s.promise? p).isSome → (s.newCapability root).2.promise? p = s.promise? p :=
    fun p ↦ promise?_addPromise_of_isSome _
  refine ⟨fun p hp ↦ hunpledged p (h.new p ?_) ?_, fun p hp ↦ ?_⟩
  · by_contra hne
    rw [hold p (Option.isSome_iff_ne_none.2 hne)] at hp
    exact hne hp
  · rintro rfl
    exact nomatch hself.symm.trans hp
  · have hentrusts : s.newPromise.2.Entrusts (fun _ ↦ True) p := by
      cases hp with
      | reaction hr hp => exact .reaction hr hp
      | job hj hp => exact .job hj hp
      | suspended hl => exact .suspended hl
      | loading hK hl hp => exact .loading hK hl hp
    obtain ⟨hp', hsome⟩ := h.entrusts p (hentrusts.of_addPromise fun _ hP ↦ by cases hP; rfl)
    refine ⟨hunpledged p hp' ?_, hold p hsome ▸ hsome⟩
    rintro rfl
    simp [hnew] at hsome

/-- The module that an evaluation starts at gets a promise that has not been settled. -/
theorem Serves.newCapability (h : s.Serves []) (hroot : (s.source? root).isSome) :
    (s.newCapability root).2.Expects root (s.newCapability root).1 := by
  have hnew : s.promise? (s.newCapability root).1 = none := promise?_addPromise_fst s (.pending [])
  have hold : ∀ p, (s.promise? p).isSome →
      (s.newCapability root).2.promise? p = s.promise? p := fun p hp ↦
    promise?_addPromise_of_isSome _ hp
  have hself : (s.newCapability root).2.promise? (s.newCapability root).1 = some (.pending []) :=
    promise?_addPromise_self s _
  have hcapability := capability?_newCapability_of_isSome hroot
  have hne : ∀ x p, s.capability? x = some p → p ≠ (s.newCapability root).1 := by
    rintro x p hp rfl
    have := h.tells.made x _ hp
    simp [hnew] at this
  refine ⟨⟨fun x p hp ↦ ?_, fun x y p hx hy ↦ ?_, fun x r p hr hp hx ↦ ?_, fun x p hx hp ↦ ?_⟩,
    ?_, fun x r hr hsome ↦ ?_⟩
  · rw [hcapability] at hp
    split at hp
    · rw [← Option.some.inj hp, hself]
      rfl
    · rw [hold p (h.tells.made x p hp)]
      exact h.tells.made x p hp
  · rw [hcapability] at hx hy
    split at hx <;> split at hy
    · next hxr hyr => exact hxr.trans hyr.symm
    · exact absurd (Option.some.inj hx).symm (hne y p hy)
    · exact absurd (Option.some.inj hy).symm (hne x p hx)
    · exact h.tells.own x y p hx hy
  · rw [source?_newCapability, if_neg hx] at hr
    have hmade := h.tells.made x p (capability?_eq_some.2 ⟨r, hr, hp⟩)
    rw [outcome?_eq (hold p hmade)]
    exact h.tells.tells x r p hr hp (Expects.lateIn_nil x)
  · rw [hcapability, if_pos hx] at hp
    rw [← Option.some.inj hp, Store.outcome?, hself]
    rfl
  · rw [hcapability, if_pos rfl]
  · by_cases hx : x = root
    · exact .inr hx
    · rw [source?_newCapability, if_neg hx] at hr
      obtain ⟨p, hp⟩ := Option.isSome_iff_exists.1 hsome
      refine .inl ((h.seats x r p hr hp).resolve_right ?_)
      rintro ⟨τ, hτ, -⟩
      contradiction

/-- A walk starts that tells a promise. -/
theorem Expects.start (h : s.Expects root p) (hnot : ¬s.Underway root) (hupright : s.Upright) :
    ((EvaluationWalk.start s root).2.next (EvaluationWalk.start s root).1 (.promise root p)).1.Serves
      ((EvaluationWalk.start s root).2.next (EvaluationWalk.start s root).1
        (.promise root p)).2.tours := by
  have htreads : s.Treads (EvaluationWalk.start s root).1 := .arrive s {} root .executing
  have hkeeps : s.KeepsPledges (EvaluationWalk.start s root).1 :=
    h.tells.keepsPledges (congrArg Prod.fst (EvaluationWalk.duties_arrive s {} root .executing))
  obtain ⟨r, hr, -⟩ := capability?_eq_some.1 h.capability
  refine (h.tread htreads hkeeps).next (fun e left hstep ↦ ?_) fun hgo ↦ ?_
  · obtain ⟨rfl, -⟩ := EvaluationWalk.stack_of_start hstep
    refine ⟨by simp, .inr fun r' hr' ↦ ?_⟩
    obtain ⟨r₀, hr₀, hrel⟩ := Each.before htreads hr'
    obtain rfl := Option.some.inj (hr.symm.trans hr₀)
    have hfail : r.evaluationError = some e := by
      unfold EvaluationWalk.start EvaluationWalk.arrive at hstep
      rw [hr] at hstep
      dsimp only at hstep
      split at hstep
      · next e' ha =>
        obtain ⟨rfl, -⟩ := EvaluationStep.failed.inj hstep
        exact r.error_of_fail ha
      · contradiction
      · contradiction
    have hover : r.status = .evaluated := by
      by_contra hne
      simp [hupright root r hr hne] at hfail
    have hstatus : r'.status = .evaluated := (hrel.settling (by rw [hover]; rfl)).trans hover
    simp [SourceText.outcome?, hstatus, hrel.evaluationError, hfail]
  · unfold EvaluationWalk.start EvaluationWalk.arrive at htreads hgo ⊢
    rw [hr] at htreads hgo ⊢
    dsimp only at htreads hgo ⊢
    split at hgo
    · next e _ => exact absurd rfl (hgo e _)
    · next ha =>
      have hstatus : r.status ≠ .evaluating := fun hs ↦ hnot ⟨r, hr, by rw [hs]; rfl⟩
      obtain ⟨hs, he⟩ := SourceText.settling_of_pass ha hstatus
      simp only [ha] at htreads ⊢
      exact .inl ⟨rfl, SettlesWell.tread ⟨r, hr, hs, he⟩ htreads⟩
    · next t ha =>
      refine .inr ⟨rfl, fun r' hr' ↦ SourceText.outcome?_of_ne ?_⟩
      simp only [EvaluationWalk.push, source?_modifySource, if_pos, hr, Option.map_some] at hr'
      rw [← Option.some.inj hr']
      change t.status ≠ .evaluated
      cases t <;> rintro ⟨⟩

/-! ### Modules that were waited for -/

theorem capability?_modifySource (s : Store) (m : ModuleId) {f : SourceText → SourceText}
    (hf : ∀ r, (f r).capability = r.capability) (x : ModuleId) :
    (s.modifySource m f).capability? x = s.capability? x :=
  capability?_of_each (Each.modifySource (R := fun r r' ↦ r'.capability = r.capability)
    (fun _ ↦ rfl) s m fun r _ ↦ hf r) x

theorem capability?_setStatus (s : Store) (m : ModuleId) (status : Status) (x : ModuleId) :
    (s.setStatus m status).capability? x = s.capability? x := by
  refine s.capability?_modifySource m ?_ x
  exact fun _ ↦ rfl

theorem capability?_settleAsync (s : Store) (m x : ModuleId) :
    (s.settleAsync m).capability? x = s.capability? x := by
  refine s.capability?_modifySource m ?_ x
  exact fun _ ↦ rfl

theorem capability?_lessen (s : Store) (m x : ModuleId) :
    (s.lessen m).capability? x = s.capability? x := by
  refine s.capability?_modifySource m ?_ x
  exact fun _ ↦ rfl

theorem capability?_congr (h : s'.modules = s.modules) (x : ModuleId) :
    s'.capability? x = s.capability? x := by
  rw [capability?, source?_congr h]
  rfl

theorem capability?_finishModule (s : Store) (m x : ModuleId) :
    (s.finishModule m).capability? x = s.capability? x := by
  refine (capability?_congr (modules_resolveCapability _ m) x).trans ?_
  rw [capability?_setStatus, capability?_settleAsync]

theorem capability?_rejectModule (s : Store) (m : ModuleId) (e : ErrorId) (x : ModuleId) :
    (s.rejectModule m e).capability? x = s.capability? x := by
  rcases fails_rejectModule s m e x with heq | ⟨r, hr, -, heq⟩
  · rw [capability?, heq]
    rfl
  · rw [capability?, heq, capability?, hr]
    rfl

theorem capability?_fulfillModule (s : Store) (m x : ModuleId) :
    (s.fulfillModule m).1.capability? x = s.capability? x := by
  unfold fulfillModule
  split
  · rfl
  · refine Eq.trans ?_ (s.capability?_finishModule m x)
    exact gatherFrom_of_lessen (R := fun s s' ↦ s'.capability? x = s.capability? x) (fun _ ↦ rfl)
      (fun _ _ _ h h' ↦ h'.trans h) (fun s p ↦ s.capability?_lessen p x) _ _ m []

theorem capability?_continueFree (s : Store) (m x : ModuleId) :
    (s.continueFree m).2.capability? x = s.capability? x := by
  unfold continueFree
  split
  · rfl
  · split
    · rfl
    · split
      · exact (Treads.startAsync s m).capability? x
      · split
        · refine (capability?_congr (modules_resolveCapability _ m) x).trans ?_
          rw [capability?_settleAsync, capability?_setStatus]
        · rfl

theorem capability?_finishFree (s : Store) (m : ModuleId) (capability : Option PromiseId)
    (c : Completion) (x : ModuleId) :
    (s.finishFree m capability c).capability? x = s.capability? x := by
  rcases capability with _ | p <;> rcases c with e | ⟨⟩
  · exact s.capability?_rejectModule m e x
  · rw [s.finishFree_eq_finishModule]
    exact s.capability?_finishModule m x
  · exact capability?_congr (modules_settle _ _ _) x
  · rfl

namespace Serves

variable {m : ModuleId} {e : ErrorId}

theorem nil_iff : s.Serves [] ↔ s.Tells (fun _ ↦ False) ∧
    ∀ x r, s.source? x = some r → r.capability.isSome → r.status.isSettling = true := by
  refine ⟨fun h ↦ ⟨lateIn_nil_eq ▸ h.tells, fun x r hr hsome ↦ ?_⟩,
    fun h ↦ ⟨lateIn_nil_eq ▸ h.1, nofun, fun x r p hr hp ↦ .inl (h.2 x r hr (by simp [hp]))⟩⟩
  obtain ⟨p, hp⟩ := Option.isSome_iff_exists.1 hsome
  refine (h.seats x r p hr hp).resolve_right ?_
  rintro ⟨τ, hτ, -⟩
  exact nomatch hτ

/-- No walk is under way, and the change is one that a walk may make. -/
theorem idle (h : s.Serves []) (htreads : s.Treads s') (hkeeps : s.KeepsPledges s') : s'.Serves [] :=
  h.keep htreads hkeeps nofun

theorem finishModule (h : s.Serves []) (hupright : s.Upright) (m : ModuleId) :
    (s.finishModule m).Serves [] := by
  obtain ⟨htells, hseats⟩ := nil_iff.1 h
  refine nil_iff.2 ⟨htells.finishModule not_false fun r hr hs ↦ hupright m r hr hs,
    fun x r' hr' hsome ↦ ?_⟩
  rw [Store.finishModule, source?_congr (modules_resolveCapability _ m), setStatus, settleAsync,
    modifySource_modifySource, source?_modifySource] at hr'
  split at hr'
  · obtain ⟨r, -, rfl⟩ := Option.map_eq_some_iff.1 hr'
    rfl
  · exact hseats x r' hr' hsome

theorem rejectModule (h : s.Serves []) (m : ModuleId) (e : ErrorId) :
    (s.rejectModule m e).Serves [] := by
  obtain ⟨htells, hseats⟩ := nil_iff.1 h
  refine nil_iff.2 ⟨htells.rejectFrom _ (fun _ _ hx ↦ hx.elim) m, fun x r' hr' hsome ↦ ?_⟩
  rcases fails_rejectModule s m e x with heq | ⟨r, -, -, heq⟩
  · exact hseats x r' (heq ▸ hr') hsome
  · rw [← Option.some.inj (heq.symm.trans hr')]
    rfl

/-- A module that was only searched has no promise, so there is none to settle. -/
theorem finishSearched (h : s.Serves []) {r : SourceText} (hm : s.source? m = some r)
    (hs : r.status.isSettling = false) : (s.finishSearched m).Serves [] := by
  obtain ⟨htells, hseats⟩ := nil_iff.1 h
  have hcap : r.capability = none := by
    by_contra hne
    have := hseats m r hm (Option.isSome_iff_ne_none.2 hne)
    exact absurd (hs.symm.trans this) Bool.false_ne_true
  have hstore : s.finishSearched m =
      s.modifySource m fun r ↦ { r with status := .asyncSubgraphsEvaluated, asyncState := .settled } := by
    rw [Store.finishSearched, setStatus, settleAsync, modifySource_modifySource,
      Store.resolveCapability]
    simp [capability?, source?_modifySource, hm, hcap]
  have hsource : ∀ x r', (s.finishSearched m).source? x = some r' → r'.capability.isSome →
      s.source? x = some r' := fun x r' hr' hsome ↦ by
    rw [hstore, source?_modifySource] at hr'
    split at hr'
    · next hx =>
      rw [hx, hm] at hr'
      rw [← Option.some.inj hr', show SourceText.capability _ = none from hcap] at hsome
      contradiction
    · exact hr'
  refine nil_iff.2 ⟨htells.change (fun x ↦ ?_) (htells.keepsPledges (hstore ▸ rfl))
    fun x q q' _ hq hsome hq' ↦ ?_, fun x r' hr' hsome ↦ hseats x r' (hsource x r' hr' hsome) hsome⟩
  · rw [hstore, capability?, source?_modifySource, capability?]
    split
    · next hx => rw [hx, hm]; rfl
    · rfl
  · have hsome' : q'.capability.isSome := by
      rw [hstore, source?_modifySource, hq] at hq'
      split at hq' <;> rw [← Option.some.inj hq'] <;> exact hsome
    rw [Option.some.inj ((hsource x q' hq' hsome').symm.trans hq)]

theorem fulfillModule (h : s.Serves []) (hupright : s.Upright) (m : ModuleId) :
    (s.fulfillModule m).1.Serves [] := by
  unfold Store.fulfillModule
  split
  · exact h
  · have hfinish := h.finishModule hupright m
    refine hfinish.idle (gatherFrom_of_lessen (R := Store.Treads) .refl (fun _ _ _ ↦ .trans)
      (fun s p ↦ ?_) _ _ m []) (hfinish.tells.keepsPledges ?_)
    · exact .modifySource s p fun _ ↦ ⟨rfl, rfl, rfl, rfl, rfl⟩
    · exact gatherFrom_of_lessen (R := fun s s' ↦ s'.promises = s.promises) (fun _ ↦ rfl)
        (fun _ _ _ h h' ↦ h'.trans h) (fun _ _ ↦ rfl) _ _ m []

theorem continueFree (h : s.Serves []) (htrusts : s.Trusts s.Unpledged) (m : ModuleId) :
    (s.continueFree m).2.Serves [] := by
  unfold Store.continueFree
  split
  · exact h
  · next r hm =>
    split
    · exact h
    · split
      · exact h.idle (.startAsync s m) ((s.startAsync_deals htrusts m).1.keepsPledges h.tells)
      · split
        · next hs => exact h.finishSearched hm (by rw [hs]; rfl)
        · exact h

theorem finishFree (h : s.Serves []) (htrusts : s.Trusts s.Unpledged) (hupright : s.Upright)
    (m : ModuleId) {capability : Option PromiseId} (hlends : s.Lends s.Unpledged capability.toList)
    (c : Completion) : (s.finishFree m capability c).Serves [] := by
  rcases capability with _ | p <;> rcases c with e | ⟨⟩
  · exact h.rejectModule m e
  · rw [s.finishFree_eq_finishModule]
    exact h.finishModule hupright m
  · have hreject : s.Deals s.Unpledged (s.reject p e) := .settle htrusts hlends _
    exact h.idle (.of_modules (modules_settle _ _ _)) (hreject.keepsPledges h.tells)
  · exact h

end Serves

end Store

end EcmaModules
