import EcmaModules.Proofs.Bonds
import EcmaModules.Proofs.Outcome

/-!
# Errors reach those who wait

When a module fails, whoever waits for it has failed as well by the end of the step, and so have
those who wait for them. It makes no difference how the module failed.

That does not hold of every run. A walk that fails marks what is left on its stack, but not the
modules that wait for those and are not on the stack: there are such modules when a module that was
only searched, and is waited for, is entered once more by the evaluation of another module. These
go on waiting for ever. What is proved is about the runs in which a walk that fails leaves nobody
behind.
-/

namespace EcmaModules

open EvaluationWalk (await leadsBack detach)

/-- Whoever waits is not over before what it waits for, unless it fails. -/
def Scene.Bonded (S : Scene) : Prop := Bonds S.store S.queue S.lone S.due S.events

/-- A walk is back at a module, which comes to wait for another one. -/
theorem Bonds.back {s : Store} {goal : EvaluationGoal} {st : Stance} {w : EvaluationWalk}
    {f : EvaluationFrame} {rest : List EvaluationFrame} {T : List Tour} {F X G : List ModuleId}
    {H : List Event} (h : Bonds s F X G H)
    (hs : Sound s.outline (⟨goal, st, w⟩ :: T) F X G H) (hclear : ∀ y ∈ F, y ∉ w.stack)
    (hf : w.frames = f :: rest) (d : ModuleId) : Bonds (EvaluationWalk.await s f.module d) F X G H :=
  h.await hs List.mem_cons_self (hf ▸ List.mem_cons_self) hclear d

/-- Every move keeps the bonds between those who wait and what they wait for, if no walk fails
while others wait for it. -/
theorem Move.bonded {mode : Mode} {S S' : Scene} (hmove : Move mode S S') (hmode : ¬mode.opens)
    (hv : Valid S) (hclear : S.Clear) (h : S.Bonded) : S'.Bonded := by
  have hs := hv.sound
  induction hmove with
  | aside ha _ => exact Bonds.of_outline h ha.outline
  | note a r => exact Bonds.events h rfl
  | evaluate hm hroot hcap _ => exact Bonds.stay h (.newCapability _ _)
  | force hm h1 h2 h3 hready _ => exact h
  | request hf hd => exact h
  | unloaded hf hd _ => exact h
  | synthetic hd => exact h
  | pass hd ha _ =>
    unfold Scene.Bonded
    split
    · exact Bonds.stay h (.detach _ _ _)
    · exact h
  | @enter s goal w t t' T F X G J H d r hd ha hnot hmode =>
    have hopen : r.status.isOpen = true := by
      obtain ⟨-, hs⟩ := SourceText.arrival_eq_enter ha
      cases hr : r.status <;> simp [hr, Status.outline, Status.isOpen] at hs ⊢
    exact Bonds.enter h hs hd ha hnot ((hclear _ List.mem_cons_self).not_mem hd hopen)
  | leaveLast hf => exact h
  | @leaveBack s goal st w f rest T F X G J H d r q hst hf hr hq hlead =>
    exact Bonds.back (Bonds.stay h (.lowerAncestor s f.module q.dfsAncestorIndex))
      (hs.lowerAncestor _ _) (hclear _ List.mem_cons_self).stack hf d
  | leaveSearched hst hf hr hq hlead hqs => exact Bonds.back h hs (hclear _ List.mem_cons_self).stack hf _
  | leaveOff hf hr hq hlead hqs he => exact Bonds.back h hs (hclear _ List.mem_cons_self).stack hf _
  | hold hf hr hpos => exact Bonds.stay h (.holdModule _ _)
  | run hf hr h0 hw =>
    exact Bonds.run h hs (hclear _ List.mem_cons_self).stack hf hr h0
  | runAsync hf hr h0 hw =>
    exact Bonds.stay (Bonds.run h hs (hclear _ List.mem_cons_self).stack hf hr h0)
      (.startAsync _ _)
  | search hf => exact Bonds.stay h (.holdSearched _ _)
  | ended hb hc => exact Bonds.events h rfl
  | pop hstack hnot hroot =>
    exact Bonds.pop h hv (hclear _ List.mem_cons_self).stack hstack hnot
  | done hf => exact Bonds.stay h (.finish _ _)
  | fail e hclosed _ => exact Bonds.fail h hs (hclosed.resolve_left hmode) e
  | failed e hb => exact Bonds.events h rfl
  | take hj => exact Bonds.stay h (.of_modules rfl)
  | drop hj => exact h
  | late hm => exact h
  | @fulfill s m r H hm hst =>
    obtain ⟨p, hp, -⟩ := hv.ledger.job m (.ok ()) (by simp)
    exact (Bonds.finishModule h hs (Sound.mem_begun.2 ⟨_, hp⟩)).relist (List.Subset.refl _) (by simp)
      (List.nil_subset _)
  | @reject s m e H =>
    obtain ⟨p, hp, -⟩ := hv.ledger.job m (.error e) (by simp)
    obtain ⟨q, hq, -⟩ := hs.began m _ hp
    obtain ⟨r, hr, rfl⟩ := Store.source?_of_outline hq
    exact Bonds.reject h hr (by simpa using (hs.lawful m _ hq).over_or_waiting ⟨_, hp⟩) e
  | skip hm => exact Bonds.skip h hs
  | lessen hF hb hm h0 => exact Bonds.lessen h hm hF h0
  | release hF hb hm h0 => exact Bonds.release h hm hF h0
  | @past s m F H hm =>
    refine Bonds.dequeue h rfl (List.subset_cons_self _ _) fun q hq hw ↦ ?_
    rcases hm with hm | hm
    · exact absurd (hm.symm.trans hq) (by simp)
    · exact absurd (by simpa [Store.status?, hq] using hm) (Status.ne_evaluated_of_isWaiting hw)
  | pastSearched hm hw hst => exact Bonds.pastSearched h hs hm hst
  | free hm hst hw hst' =>
    exact (Bonds.run_head h hs hm hst).relist (List.subset_cons_self _ _)
      (fun z hz _ _ _ _ ↦ ⟨hz, fun _ hsub ↦ hsub⟩) (List.Subset.refl _)
  | freeAsync hm hst hw =>
    refine Bonds.stay ((Bonds.run_head h hs hm hst).dequeue rfl (List.subset_cons_self _ _) ?_)
      (.startAsync _ _)
    intro q hq _
    obtain rfl := Option.some.inj (hm.symm.trans hq)
    exact hw
  | freed => exact Bonds.events (Bonds.freed h hs) rfl
  | freedError => exact Bonds.events (Bonds.freedError h hs _) rfl
  | freedAsync hb => exact Bonds.events h rfl

/-! ## Runs -/

/-- Moreover, whoever waits for a module on the stack of a walk that fails is on it as well, or has
been evaluated. -/
structure Machine.Sealing (M M' : Machine) : Prop extends M.Orderly M' where
  closed : M.store.Closed M.lost

/-- Everything may happen, but that walks fail while others wait for them. -/
def Mode.sealing : Mode :=
  ⟨fun _ ↦ True, fun _ ↦ True, True, False, True, True, True, True, True⟩

theorem Machine.Sealing.grants {M M' : Machine} (h : M.Sealing M') : M.Grants .sealing M' :=
  ⟨⟨fun x _ ↦ h.searched x, .inl trivial, .inl trivial⟩, .inl trivial,
    h.linking.imp id fun h _ _ x _ ↦ h x, .inr h.closed, .inl trivial, .inl trivial, .inl trivial,
    .inl trivial, fun _ _ ↦ trivial⟩

/-- Nobody waits in the beginning. -/
theorem Store.Fresh.bonded {s : Store} (h : s.Fresh) : ((State.idle s).scene []).Bonded := by
  have hnone : ∀ z q, s.source? z = some q → q.asyncParents = [] := fun z q hq ↦
    (h.source z q hq).2.2.2.2.2.1
  refine ⟨fun z q hq _ y hy ↦ ?_, nofun, nofun, fun d q hq _ y hy ↦ ?_⟩
  · rw [hnone z q hq] at hy
    exact absurd hy List.not_mem_nil
  · rw [hnone d q hq] at hy
    exact absurd hy List.not_mem_nil

/-- In moves, those who wait stay bonded to what they wait for. -/
theorem Moves.bonded {mode : Mode} {S S' : Scene} (hmoves : Moves mode S S') (hmode : ¬mode.opens)
    (hv : Valid S) (hclear : S.Clear) (h : S.Bonded) : S'.Bonded := by
  have hall : Valid S' ∧ S'.Clear ∧ S'.Bonded := by
    induction hmoves with
    | refl => exact ⟨hv, hclear, h⟩
    | tail _ hmove ih =>
      obtain ⟨hv, hclear, h⟩ := ih
      exact ⟨hmove.valid hv, hmove.clear hv hclear, hmove.bonded hmode hv hclear h⟩
  exact hall.2.2

theorem Run.bonded {s₀ : Store} {st : State} {H : List Event} (hs : s₀.Fresh)
    (h : Run Machine.Sealing s₀ st H) : (st.scene H).Bonded :=
  (h.moves (fun _ _ ↦ Machine.Sealing.grants) hs.valid).1.bonded not_false hs.valid nofun hs.bonded

/-- A module has been evaluated, with an error. -/
def Store.Failed (s : Store) (m : ModuleId) : Prop := ∃ r, s.source? m = some r ∧ r.hasFailed

theorem Store.failed_of_eq {s : Store} {m : ModuleId} {e : ErrorId}
    (hs : s.status? m = some .evaluated) (he : s.evaluationError? m = some e) : s.Failed m := by
  obtain ⟨r, hr, hst⟩ := Store.source?_of_status? hs
  have he' : r.evaluationError = some e := by simpa [evaluationError?, hr] using he
  exact ⟨r, hr, hst, he' ▸ rfl⟩

/-- The error of a module reaches everyone who waits for it, or for one that waits for it and so on,
and does not leave them. -/
theorem failure_reaches_waiting {s₀ : Store} {st st' : State} {H H' : List Event} {d x : ModuleId}
    (hs : s₀.Fresh) (h : Run Machine.Sealing s₀ st H)
    (h' : Onward Machine.Sealing (st, H) (st', H')) (hd : st.store.Failed d)
    (hx : Relation.TransGen (fun z y ↦ y ∈ st.store.parents z) d x) : st'.store.Failed x := by
  have hshared : ∀ z y, st.store.Failed z → y ∈ st.store.parents z → st.store.Failed y := by
    rintro z y ⟨q, hq, hf⟩ hy
    have hbonds := h.bonded hs
    rw [Scene.Bonded, State.store_scene] at hbonds
    exact hbonds.shared z q hq hf y (by simpa [Store.parents, hq] using hy)
  have hfailed : st.store.Failed x := by
    induction hx with
    | single hy => exact hshared _ _ hd hy
    | tail _ hy ih => exact hshared _ _ ih hy
  -- that it has failed is final
  obtain ⟨r, hr, hst, he⟩ := hfailed
  have horderly : ∀ M M', Machine.Sealing M M' → M.Orderly M' := fun _ _ hM ↦ hM.toOrderly
  have hrun := h.mono horderly
  have hfinal : Final st.store st'.store :=
    Onward.final (hrun.sparing hs) (Onward.sparing (x := (st, H)) hs hrun (h'.mono horderly))
  obtain ⟨r', hr', hst', he'⟩ := hfinal x r hr hst
  exact ⟨r', hr', hst', he' ▸ he⟩

/-! ### Graphs for which it holds, and does not -/

/-- Whether a step is sealing can be checked. -/
def Machine.checkSealing (M M' : Machine) : Bool :=
  M.checkOrderly M' && M.lost.all fun d ↦ (M.store.parents d).all fun x ↦
    M.lost.contains x || M.store.status? x == some .evaluated

theorem Machine.sealing_of_check {M M' : Machine} (h : M.checkSealing M' = true) :
    M.Sealing M' := by
  rw [checkSealing, Bool.and_eq_true] at h
  refine ⟨Machine.orderly_of_check h.1, fun d hd x hx ↦ ?_⟩
  simpa using List.all_eq_true.1 (List.all_eq_true.1 h.2 d hd) x hx

/-- A module that awaits and fails, one that imports it, and one that imports that. -/
def rejectedGraph : Store where
  modules := #[.scripted false [("mid", .evaluation, 1)] [],
    .scripted false [("tla", .evaluation, 2)] [],
    .scripted true [] [.throw .error "broken"]]

/-- The graph when the failure has been noticed. -/
def rejectedOnce : Store × List Event :=
  (rejectedGraph.play Machine.checkSealing 100 [.evaluate ⟨0⟩, .job] []).get (by decide +kernel)

/-- The graph when it has been evaluated once more. -/
def rejectedTwice : Store × List Event :=
  (rejectedOnce.1.play Machine.checkSealing 100 [.evaluate ⟨1⟩] rejectedOnce.2).get
    (by decide +kernel)

/-- The module that is imported fails, and those that wait for it, and stay so. -/
theorem failure_reaches_waiting_rejectedGraph :
    rejectedGraph.Fresh ∧ Run Machine.Sealing rejectedGraph (.idle rejectedOnce.1) rejectedOnce.2 ∧
      Onward Machine.Sealing (.idle rejectedOnce.1, rejectedOnce.2)
        (.idle rejectedTwice.1, rejectedTwice.2) ∧
      rejectedOnce.1.Failed ⟨2⟩ ∧
      Relation.TransGen (fun z y ↦ y ∈ rejectedOnce.1.parents z) ⟨2⟩ ⟨0⟩ ∧
      rejectedTwice.1.Failed ⟨0⟩ := by
  have hfresh : rejectedGraph.Fresh := Store.fresh_of_scripted
    (l := [(false, [("mid", .evaluation, 1)], []), (false, [("tla", .evaluation, 2)], []),
      (true, [], [.throw .error "broken"])]) rfl rfl rfl
  have hrun : Run Machine.Sealing rejectedGraph (.idle rejectedOnce.1) rejectedOnce.2 :=
    Run.ofPlay Machine.checkSealing rejectedGraph 100 _ (fun _ _ ↦ Machine.sealing_of_check) _
  have honward : Onward Machine.Sealing (.idle rejectedOnce.1, rejectedOnce.2)
      (.idle rejectedTwice.1, rejectedTwice.2) :=
    Onward.ofPlay Machine.checkSealing rejectedOnce 100 _ (fun _ _ ↦ Machine.sealing_of_check) _
  have hfailed : rejectedOnce.1.Failed ⟨2⟩ := Store.failed_of_eq (e := ⟨0⟩) (by decide +kernel)
    (by decide +kernel)
  have hparents : Relation.TransGen (fun z y ↦ y ∈ rejectedOnce.1.parents z) ⟨2⟩ ⟨0⟩ :=
    .tail (.single (show (⟨1⟩ : ModuleId) ∈ rejectedOnce.1.parents ⟨2⟩ by decide +kernel))
      (by decide +kernel)
  have hreaches : ∀ x y : Store × List Event, Run Machine.Sealing rejectedGraph (.idle x.1) x.2 →
      Onward Machine.Sealing (.idle x.1, x.2) (.idle y.1, y.2) → x.1.Failed ⟨2⟩ →
      Relation.TransGen (fun z y ↦ y ∈ x.1.parents z) ⟨2⟩ ⟨0⟩ → y.1.Failed ⟨0⟩ :=
    fun x y ↦ failure_reaches_waiting hfresh
  exact ⟨hfresh, hrun, honward, hfailed, hparents,
    hreaches rejectedOnce rejectedTwice hrun honward hfailed hparents⟩

/-- A deferred module that imports one that awaits, and one that fails. -/
def abandonedGraph : Store where
  modules := #[.scripted false [("dep", .defer, 1)] [],
    .scripted false [("tla", .evaluation, 2), ("broken", .evaluation, 3)] [],
    .scripted true [] [],
    .scripted false [] [.throw .error "broken"]]

/-- The graph when both have been evaluated. -/
def abandoned : Store × List Event :=
  (abandonedGraph.play (fun _ _ ↦ true) 100 [.evaluate ⟨0⟩, .evaluate ⟨1⟩, .job] []).get
    (by decide +kernel)

/-- The deferred module is evaluated itself, while the one that it was searched for waits for it. It
fails, and the other one waits for ever. -/
theorem abandonedGraph_waits_on :
    abandonedGraph.Fresh ∧ Run (fun _ _ ↦ True) abandonedGraph (.idle abandoned.1) abandoned.2 ∧
      abandoned.1.Failed ⟨1⟩ ∧ (⟨0⟩ : ModuleId) ∈ abandoned.1.parents ⟨1⟩ ∧
      abandoned.1.jobs = [] ∧ ¬abandoned.1.Failed ⟨0⟩ := by
  have hrun : Run (fun _ _ ↦ True) abandonedGraph (.idle abandoned.1) abandoned.2 :=
    Run.ofPlay (fun _ _ ↦ true) abandonedGraph 100 _ (fun _ _ _ ↦ trivial) _
  have hwaits : abandoned.1.status? ⟨0⟩ = some .evaluatingAsync := by decide +kernel
  refine ⟨Store.fresh_of_scripted (l := [(false, [("dep", .defer, 1)], []),
    (false, [("tla", .evaluation, 2), ("broken", .evaluation, 3)], []), (true, [], []),
    (false, [], [.throw .error "broken"])]) rfl rfl rfl, hrun,
    Store.failed_of_eq (e := ⟨0⟩) (by decide +kernel) (by decide +kernel), by decide +kernel,
    List.eq_nil_of_length_eq_zero (by decide +kernel), ?_⟩
  rintro ⟨r, hr, hs, -⟩
  simp [Store.status?, hr, hs] at hwaits

end EcmaModules
