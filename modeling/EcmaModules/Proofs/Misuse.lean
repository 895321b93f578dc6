import EcmaModules.Proofs.Closure
import EcmaModules.Proofs.Custody

/-!
# A host cannot spoil a loading operation

Whatever answers a host gives, and whenever, an operation that goes on counts exactly the requests
that the host has not answered, and at least one. So it neither ends too early nor waits for
nothing. Answers that were not asked for, and answers that contradict earlier ones, change nothing
of what was given to modules, and end the operation with an error. An operation that has ended stays
so: it asks for nothing more, and its promise stays as it is.

The count comes from what loading operations keep count of step by step (`Store.Charts`); between
two calls there are no walks that a part of it could stand for. That an operation that goes on has a
promise that is pending is shown here, from the fact that nobody else gets hold of the promise
(`Machine.Reserves`).
-/

namespace EcmaModules

/-! ## Runs and funds -/

/-- Only promises in the fund may be settled. -/
def State.Reserves (E : Fund) : State → Prop
  | .idle s => s.Reserves E
  | .busy _ M => M.Reserves E

/-- The turn is a step of a loading operation. -/
def State.Operates (st : State) (l : LoadingId) (st' : State) : Prop :=
  ∃ a M, st = .busy a M ∧ M.operation? = some l ∧ st' = .busy a M.step

section

variable {E : Fund} {s s' : Store} {st st' : State} {P : Machine → Machine → Prop}

theorem State.Reserves.store (h : st.Reserves E) : st.store.Reserves E := by
  cases st with
  | idle s => exact h
  | busy a M => exact Machine.Reserves.store h

/-- A call for a task to which no promise is handed. -/
theorem Machine.Reserves.start (h : s.Reserves E) {t : Task} (ht : s.Lends E (Next.goto t).holds) :
    (Machine.start s t).Reserves E := by
  refine ⟨h, fun p hp ↦ ht p ?_⟩
  rcases List.mem_append.1 hp with hp | hp
  · exact hp
  · exact absurd hp List.not_mem_nil

/-- A promise is handed only to those that may have it. -/
theorem Act.begin_reserves {a : Act} (h : s.Reserves E) (ha : a.begin s = some st) :
    st.Reserves E ∧ s.Spares E st.store := by
  cases a with
  | namespaceOf m phase =>
    obtain rfl := Option.some.inj ha
    have hspares : s.Spares E (s.namespaceOf m phase).2 :=
      .of_duties h (s.duties_namespaceOf m phase)
        (Store.capability?_of_outline (s.namespaceOf_apart m phase).outline)
    exact ⟨hspares.reserves, hspares⟩
  | settle label c =>
    obtain ⟨p, hp, rfl⟩ := Option.map_eq_some_iff.1 ha
    have hsuspended : (label, p) ∈ s.stage.suspended := by
      obtain ⟨before, after, hlist, -⟩ := List.lookup_eq_some_iff.1 hp
      simp [hlist]
    have hspares := Store.Spares.settle h
      (List.forall_mem_singleton.2 (h.trusts.entrusts p (.suspended hsuspended))) c
    exact ⟨hspares.reserves, hspares⟩
  | job =>
    simp only [begin] at ha
    split at ha
    · contradiction
    · next j rest hjobs =>
      obtain rfl := Option.some.inj ha
      have hdeals : s.Deals E { s with jobs := rest } :=
        .of_eq h.trusts rfl (hjobs ▸ List.subset_cons_self j rest) rfl fun l r' hl ↦ ⟨r', hl, rfl⟩
      have hspares := Store.Spares.of_deals h hdeals fun _ ↦ rfl
      refine ⟨.start hspares.reserves fun p hp ↦ ?_, hspares⟩
      refine h.trusts.entrusts p (.job (hjobs ▸ List.mem_cons_self) ?_)
      simpa [Next.holds, Next.targets, Task.targets, Next.goals, Task.goals] using hp
  | _ =>
    obtain rfl := Option.some.inj ha
    exact ⟨.start h (List.forall_mem_nil _), .refl h⟩

/-- What is not in the fund is settled by nothing but a step of an operation that is not in it
either. -/
theorem State.Reserves.turn (h : st.Reserves E) (ht : Turn P st st') :
    st'.Reserves E ∧ ((∃ l, ¬E.loadings l ∧ st.Operates l st') ∨ st.store.Spares E st'.store) := by
  cases ht with
  | call a ha => exact (Act.begin_reserves h ha).imp_right .inr
  | @step a M hP =>
    by_cases hK : ∀ l, M.operation? = some l → E.loadings l
    · exact (Machine.Reserves.step h hK).imp_right .inr
    · simp only [not_forall] at hK
      obtain ⟨l, hl, hK⟩ := hK
      exact ⟨(Machine.works_of_operation? hl).2 E h, .inl ⟨l, hK, a, M, rfl, hl, rfl⟩⟩
  | @consult a M q s hq hs =>
    obtain ⟨s₀, control, fs⟩ := M
    obtain rfl : control = _ := Machine.control_of_question? hq
    have hspares : s₀.Spares E s := .of_deals (Machine.Reserves.store h)
      (hs.deals (Machine.Reserves.store h).trusts)
      (Store.capability?_of_outline hs.aside.outline)
    exact ⟨⟨hspares.reserves, (Machine.Reserves.lends h).mono hspares.grows⟩, .inr hspares⟩
  | @answer a M q as hq =>
    obtain ⟨s₀, control, fs⟩ := M
    obtain rfl : control = _ := Machine.control_of_question? hq
    have hM : (Machine.mk s₀ (.run (.ask q)) fs).Reserves E := h
    exact ⟨⟨hM.store, hM.lends⟩, .inr (.refl hM.store)⟩
  | finish hr => exact ⟨Machine.Reserves.store h, .inr (.refl (Machine.Reserves.store h))⟩

end

/-! ## What a turn does to operations -/

/-- The turn starts a loading operation. -/
def State.Opens (st st' : State) : Prop :=
  ∃ a M m hostDefined, st = .busy a M ∧ M.control = .run (.load m hostDefined) ∧
    (M.store.source? m).isSome ∧ st' = .busy a M.step

/-- No step but one of loading changes what is being loaded. -/
theorem Machine.Charted.loadings_step {M : Machine} (h : M.Charted) (hP : M.Fair M.step) :
    M.step.store.loadings = M.store.loadings ∨ (∃ l, M.operation? = some l) ∨
      ∃ m hostDefined, M.control = .run (.load m hostDefined) ∧ (M.store.source? m).isSome := by
  rcases hnext : M.next? with _ | x
  · exact .inl (by rw [step_of_next?_eq_none hnext])
  rw [step_of_next? hnext, store_apply]
  obtain ⟨s, control, fs⟩ := M
  obtain ⟨hcharts, hrefers, hcurrent, hframes⟩ := h
  have hk : s.Knows s.loadedScope := hcharts.rounded.knows
  rcases control with t | r
  · obtain rfl : x = t.advance s := advance_of_next? hnext
    cases hremote : t.isRemote with
    | false => exact .inl (Task.advance_steps hrefers hk hcurrent
        (fun m ht ↦ hP.evaluate m (congrArg _ ht)) hremote).store.same.loadings
    | true =>
      cases t with
      | synthetic m =>
        refine .inl ?_
        have hstart : (s.startSynthetic m).2.loadings = s.loadings := by
          unfold Store.startSynthetic
          split
          · rfl
          · split <;> rfl
        simp only [Task.advance]
        split <;> next heq => rw [heq] at hstart; exact hstart
      | load m hostDefined =>
        rcases hm : s.source? m with _ | r
        · refine .inl ?_
          simp only [Task.advance, hm]
          rfl
        · exact .inr (.inr ⟨m, hostDefined, rfl, by rw [hm]; rfl⟩)
      | loading w => exact .inr (.inl ⟨_, rfl⟩)
      | ask q => exact .inl rfl
      | answers as =>
        rcases as with _ | ⟨a, rest⟩
        · exact .inl rfl
        · exact .inr (.inl ⟨_, rfl⟩)
      | _ => contradiction
  · rcases fs with _ | ⟨f, fs⟩
    · contradiction
    obtain rfl : x = f.resume s r := (Option.some.inj hnext).symm
    rw [List.forall_mem_cons] at hframes
    by_cases hin : ∀ m, f ≠ .syntheticSteps m
    · exact .inl (Frame.resume_steps hrefers hframes.1 r hin).store.same.loadings
    · simp only [ne_eq, not_forall, not_not] at hin
      obtain ⟨m, rfl⟩ := hin
      exact .inl rfl

theorem Act.loadings_begin {a : Act} {s : Store} {st : State} (ha : a.begin s = some st) :
    st.store.loadings = s.loadings := by
  cases a with
  | namespaceOf m phase =>
    obtain rfl := Option.some.inj ha
    exact (s.namespaceOf_apart m phase).steady.loadings
  | settle label c =>
    obtain ⟨p, -, rfl⟩ := Option.map_eq_some_iff.1 ha
    exact s.loadings_settle p c
  | job =>
    simp only [begin] at ha
    split at ha
    · contradiction
    · obtain rfl := Option.some.inj ha
      rfl
  | _ =>
    obtain rfl := Option.some.inj ha
    rfl

/-- A turn is a step of an operation, starts one, or is nothing to any of them. -/
theorem State.Charted.turn_cases {st st' : State} (h : st.Charted) (ht : Turn Machine.Fair st st') :
    st'.store.loadings = st.store.loadings ∨ (∃ l, st.Operates l st') ∨ st.Opens st' := by
  cases ht with
  | call a ha => exact .inl (Act.loadings_begin ha)
  | @step a M hP =>
    rcases Machine.Charted.loadings_step h hP with hl | ⟨l, hl⟩ | ⟨m, hostDefined, hc, hm⟩
    · exact .inl hl
    · exact .inr (.inl ⟨l, a, M, rfl, hl, rfl⟩)
    · exact .inr (.inr ⟨a, M, m, hostDefined, rfl, hc, hm, rfl⟩)
  | consult _ hs => exact .inl hs.aside.steady.loadings
  | answer as hq =>
    refine .inl ?_
    simp only [store, Machine.answer]
    split <;> rfl
  | finish => exact .inl rfl

/-! ## What an operation is like -/

/-- What is so of a loading operation at any time: its promise is pending just as long as it goes
on, and as long it has something to deal with. -/
structure Loading.Kept (s : Store) (r : Loading) : Prop where
  made : (s.promise? r.promise).isSome
  settles : s.outcome? r.promise = none ↔ r.isLoading = true
  pending : r.isLoading = true → 1 ≤ r.pending

/-- What may become of a loading operation in a turn. -/
structure Loading.Turns (s s' : Store) (r r' : Loading) : Prop where
  kept : r'.Kept s'
  promise : r'.promise = r.promise
  falls : r.pending ≤ r'.pending + 1
  ended : r.isLoading = false → r'.isLoading = false ∧
    s'.outcome? r.promise = s.outcome? r.promise

theorem Store.isSome_of_outcome? {s : Store} {p : PromiseId} (h : s.outcome? p ≠ none) :
    (s.promise? p).isSome := by
  unfold outcome? at h
  exact Option.isSome_iff_ne_none.2 fun hnone ↦ h (by rw [hnone]; rfl)

namespace Loading

variable {s s' : Store} {r : Loading} {l : LoadingId}

/-- The operation is nothing to the turn. -/
theorem Kept.same (h : r.Kept s) (hsome : (s'.promise? r.promise).isSome)
    (ho : s'.outcome? r.promise = s.outcome? r.promise) : r.Turns s s' r :=
  ⟨⟨hsome, ho ▸ h.settles, h.pending⟩, rfl, r.pending.le_succ, fun hl ↦ ⟨hl, ho⟩⟩

/-- The turn is a step of the operation. -/
theorem Kept.works (h : r.Kept s) (hr : s.loading? l = some r) (hw : s.Works l s') :
    ∃ r', s'.loading? l = some r' ∧ r.Turns s s' r' := by
  cases hw with
  | @alter s' f halter hf =>
    obtain ⟨hp, hl, hfalls, hstays⟩ := hf r hr
    have hpromise : s'.promise? r.promise = s.promise? r.promise := by
      rw [Store.promise?, halter.promises, Store.promise?]
    have ho := Store.outcome?_eq hpromise
    refine ⟨f r, halter.self hr, ⟨?_, ?_, fun hlf ↦ hstays (h.pending (hl ▸ hlf))⟩, hp, hfalls,
      fun hover ↦ ⟨hl.trans hover, ho⟩⟩
    · rw [hp, hpromise]
      exact h.made
    · rw [hp, ho, hl]
      exact h.settles
  | @conclude s' f r₀ c hr₀ hlr halter hf =>
    obtain rfl := Option.some.inj (hr.symm.trans hr₀)
    have hmade : (s'.promise? r.promise).isSome := by
      rw [Store.promise?, halter.promises]
      exact h.made
    have hself : (s'.settle r.promise c).loading? l = some (f r) :=
      (Store.loading?_congr (s'.loadings_settle _ _) l).trans (halter.self hr)
    have houtcome := Store.outcome?_settle hmade r.promise c
    rw [if_pos rfl] at houtcome
    have hover : ∀ {p : Prop}, (f r).isLoading = true → p := fun hlf ↦
      absurd (hf.isLoading.symm.trans hlf) Bool.false_ne_true
    refine ⟨f r, hself, ⟨?_, ⟨fun hnone ↦ ?_, hover⟩, hover⟩, hf.promise, hf.falls, fun hlf ↦ ?_⟩
    · rw [hf.promise]
      exact Store.isSome_of_outcome? (by rw [houtcome]; exact Option.some_ne_none _)
    · rw [hf.promise, houtcome] at hnone
      contradiction
    · exact absurd (hlr.symm.trans hlf) Bool.false_ne_true.symm

end Loading

/-! ## The start of an operation -/

/-- All promises, and all operations. -/
def Fund.whole : Fund where
  promises _ := True

/-- All other promises, and all other operations. -/
def Fund.beside (l : LoadingId) (p : PromiseId) : Fund where
  promises q := q ≠ p
  loadings x := x ≠ l

namespace Store

variable {s s' : Store} {l x : LoadingId} {hostDefined : Option String}

theorem Works.loading?_of_ne (h : s.Works l s') (hx : x ≠ l) : s'.loading? x = s.loading? x := by
  cases h with
  | alter h _ => rw [h.loading?, if_neg hx]
  | conclude c _ _ h _ =>
    rw [loading?_congr (loadings_settle _ _ _), h.loading?, if_neg hx]

theorem Works.isSome_loading? (h : s.Works l s') (x : LoadingId) :
    (s'.loading? x).isSome = (s.loading? x).isSome := by
  have hmap : ∀ f : Loading → Loading, (if x = l then (s.loading? x).map f
      else s.loading? x).isSome = (s.loading? x).isSome := fun f ↦ by
    split
    · exact Option.isSome_map
    · rfl
  cases h with
  | alter h _ => rw [h.loading?, hmap]
  | conclude c _ _ h _ => rw [loading?_congr (loadings_settle _ _ _), h.loading?, hmap]

/-- The store with a new loading operation that has not come to any module. -/
def opened (s : Store) (hostDefined : Option String) : Store :=
  { s.newPromise.2 with
    loadings := s.loadings.push { promise := s.newPromise.1, hostDefined := hostDefined } }

theorem loading?_opened (s : Store) (hostDefined : Option String) (x : LoadingId) :
    (s.opened hostDefined).loading? x = if x = ⟨s.loadings.size⟩ then
      some { promise := s.newPromise.1, hostDefined := hostDefined } else s.loading? x := by
  obtain ⟨i⟩ := x
  simp only [loading?, opened, Array.getElem?_push, LoadingId.mk.injEq]

theorem promise?_newPromise (s : Store) :
    s.newPromise.2.promise? s.newPromise.1 = some (.pending []) :=
  promise?_addPromise_self s _

/-- What is entrusted to others was so before the operation was there. -/
theorem Entrusts.of_opened {p : PromiseId}
    (h : (s.opened hostDefined).Entrusts (· ≠ ⟨s.loadings.size⟩) p) :
    s.Entrusts (fun _ ↦ True) p := by
  refine Entrusts.of_addPromise (P := .pending []) (fun _ hP ↦ by cases hP; rfl) ?_
  cases h with
  | reaction hr hp => exact .reaction hr hp
  | job hj hp => exact .job hj hp
  | suspended hl => exact .suspended hl
  | loading hK hl hp =>
    rw [loading?_opened, if_neg hK] at hl
    exact .loading trivial hl hp

/-- The promise of a new operation is none of those that were there. -/
theorem beside_opened (s : Store) (hostDefined : Option String) {p : PromiseId}
    (hp : (s.promise? p).isSome) : Fund.beside ⟨s.loadings.size⟩ s.newPromise.1 p ∧
      ((s.opened hostDefined).promise? p).isSome := by
  refine ⟨?_, promise?_addPromise_of_isSome (.pending []) hp ▸ hp⟩
  rintro rfl
  rw [show s.promise? s.newPromise.1 = none from promise?_addPromise_fst s _] at hp
  contradiction

/-- Nobody else gets hold of the promise of a new operation. -/
theorem Reserves.opened (h : s.Reserves .whole) (hostDefined : Option String) :
    (s.opened hostDefined).Reserves (.beside ⟨s.loadings.size⟩ s.newPromise.1) := by
  have hself : (s.opened hostDefined).promise? s.newPromise.1 = some (.pending []) :=
    s.promise?_newPromise
  have hold := fun {p} ↦ s.beside_opened hostDefined (p := p)
  refine ⟨⟨fun p hp heq ↦ ?_, fun p hp ↦ ?_⟩, fun x p hp ↦ hold (h.capabilities x p hp).2⟩
  · rw [heq, hself] at hp
    contradiction
  · exact hold (h.trusts.entrusts p hp.of_opened).2

theorem opened_kept (s : Store) (hostDefined : Option String) :
    Loading.Kept (s.opened hostDefined)
      { promise := s.newPromise.1, hostDefined := hostDefined } := by
  have hself : (s.opened hostDefined).promise? s.newPromise.1 = some (.pending []) :=
    s.promise?_newPromise
  refine ⟨?_, ⟨fun _ ↦ rfl, fun _ ↦ ?_⟩, fun _ ↦ Nat.le_refl 1⟩
  · rw [hself]
    rfl
  · rw [outcome?, hself]
    rfl

/-- What the first walk of a new operation does. -/
theorem opened_works (s : Store) (m : ModuleId) (hostDefined : Option String) :
    (s.opened hostDefined).Works ⟨s.loadings.size⟩ (s.startLoading m hostDefined).2.2 := by
  have hself := s.loading?_opened hostDefined ⟨s.loadings.size⟩
  rw [if_pos rfl] at hself
  exact LoadWalk.from_works (isLoading_iff.2 ⟨_, hself, rfl⟩) m

end Store

/-- An operation starts, and what the others are like does not change. -/
theorem State.Opens.spec {st st' : State} (h : st.Opens st') (hw : st.Reserves .whole) :
    (∀ l, l ≠ ⟨st.store.loadings.size⟩ → st'.store.loading? l = st.store.loading? l) ∧
      ∃ r, st'.store.loading? ⟨st.store.loadings.size⟩ = some r ∧ r.Kept st'.store ∧
        st'.Reserves (.beside ⟨st.store.loadings.size⟩ r.promise) := by
  obtain ⟨a, ⟨s, control, fs⟩, m, hostDefined, rfl, hc, hm, rfl⟩ := h
  obtain rfl : control = _ := hc
  obtain ⟨q, hq⟩ := Option.isSome_iff_exists.1 hm
  replace hq : s.source? m = some q := hq
  have hstep : Machine.step ⟨s, .run (.load m hostDefined), fs⟩ =
      Machine.apply fs ((s.startLoading m hostDefined).2.2,
        .call (.loading (s.startLoading m hostDefined).2.1) (.loadPromise s.newPromise.1)) := by
    simp only [Machine.step, Task.advance, hq]
    rfl
  replace hw : (Machine.mk s (.run (.load m hostDefined)) fs).Reserves .whole := hw
  have hworks := s.opened_works m hostDefined
  have hopened : (s.opened hostDefined).Reserves (.beside ⟨s.loadings.size⟩ s.newPromise.1) :=
    hw.store.opened hostDefined
  have hupholds := hworks.upholds hopened.trusts
  have hold : ∀ {p}, (s.promise? p).isSome → Fund.beside ⟨s.loadings.size⟩ s.newPromise.1 p ∧
      ((s.startLoading m hostDefined).2.2.promise? p).isSome := fun hp ↦
    (s.beside_opened hostDefined hp).imp_right (hupholds.grows _)
  simp only [State.store]
  rw [hstep]
  simp only [Machine.store_apply]
  refine ⟨fun l hl ↦ ?_, ?_⟩
  · rw [hworks.loading?_of_ne hl, Store.loading?_opened, if_neg hl]
  · have hself : (s.opened hostDefined).loading? ⟨s.loadings.size⟩ =
        some { promise := s.newPromise.1, hostDefined := hostDefined } := by
      rw [Store.loading?_opened, if_pos rfl]
    obtain ⟨r, hr, hturns⟩ := (s.opened_kept hostDefined).works hself hworks
    refine ⟨r, hr, hturns.kept, ?_⟩
    rw [hturns.promise]
    refine Machine.Reserves.apply ⟨hupholds.trusts, fun x p hp ↦ ?_⟩ (List.forall_mem_nil _)
      fun p hp ↦ ?_
    · rw [Store.capability?_of_outline (s.startLoading_afar m hostDefined).outline] at hp
      exact hold (hw.store.capabilities x p hp).2
    · exact hold (hw.lends p (List.mem_append_right _ hp)).2

/-! ## All operations in the course of a run -/

/-- The promises of operations are theirs alone, and tell whether the operations go on. -/
structure State.Keeps (st : State) : Prop where
  whole : st.Reserves .whole
  kept : ∀ l r, st.store.loading? l = some r →
    r.Kept st.store ∧ st.Reserves (.beside l r.promise)

/-- What a turn makes of an operation that is there. -/
theorem State.Keeps.turns {st st' : State} {l : LoadingId} {r : Loading} (h : st.Keeps)
    (hc : st.Charted) (ht : Turn Machine.Fair st st') (hr : st.store.loading? l = some r) :
    ∃ r', st'.store.loading? l = some r' ∧ r.Turns st.store st'.store r' := by
  obtain ⟨hkept, hreserves⟩ := h.kept l r hr
  obtain ⟨hreserves', hcases⟩ := hreserves.turn ht
  by_cases hop : st.Operates l st'
  · obtain ⟨a, M, rfl, hl, rfl⟩ := hop
    exact hkept.works hr (Machine.works_of_operation? hl).1
  · have hspares : st.store.Spares (.beside l r.promise) st'.store := by
      rcases hcases with ⟨x, hx, hop'⟩ | hspares
      · obtain rfl : x = l := not_not.1 hx
        exact absurd hop' hop
      · exact hspares
    have hself : st'.store.loading? l = st.store.loading? l := by
      rcases hc.turn_cases ht with heq | ⟨x, hx⟩ | hopens
      · exact Store.loading?_congr heq l
      · have hne : l ≠ x := by
          rintro rfl
          exact hop hx
        obtain ⟨a, M, rfl, hl, rfl⟩ := hx
        exact (Machine.works_of_operation? hl).1.loading?_of_ne hne
      · refine (hopens.spec h.whole).1 l ?_
        rintro rfl
        simp [Store.loading?] at hr
    exact ⟨r, hself.trans hr, hkept.same (hspares.grows _ hkept.made)
      (hspares.keeps _ (not_not.2 rfl))⟩

theorem State.Keeps.turn {st st' : State} (h : st.Keeps) (hc : st.Charted)
    (ht : Turn Machine.Fair st st') : st'.Keeps := by
  refine ⟨(h.whole.turn ht).1, fun l r' hr' ↦ ?_⟩
  rcases hr : st.store.loading? l with _ | r
  · rcases hc.turn_cases ht with heq | ⟨x, hx⟩ | hopens
    · rw [Store.loading?_congr heq, hr] at hr'
      contradiction
    · obtain ⟨a, M, rfl, hl, rfl⟩ := hx
      have hsome := (Machine.works_of_operation? hl).1.isSome_loading? l
      rw [show M.step.store.loading? l = some r' from hr', show M.store.loading? l = none from hr]
        at hsome
      contradiction
    · obtain ⟨hothers, r₀, hr₀, hkept, hreserves⟩ := hopens.spec h.whole
      by_cases hl : l = ⟨st.store.loadings.size⟩
      · subst hl
        obtain rfl := Option.some.inj (hr₀.symm.trans hr')
        exact ⟨hkept, hreserves⟩
      · rw [hothers l hl, hr] at hr'
        contradiction
  · obtain ⟨r₀, hr₀, hturns⟩ := h.turns hc ht hr
    obtain rfl := Option.some.inj (hr₀.symm.trans hr')
    refine ⟨hturns.kept, ?_⟩
    rw [hturns.promise]
    exact ((h.kept l r hr).2.turn ht).1

/-- Nobody waits for anything, so nobody has got hold of anything. -/
theorem Store.Pristine.keeps {s : Store} (h : s.Pristine) : (State.idle s).Keeps := by
  have hpromise : ∀ p, s.promise? p = none := fun p ↦ by simp [Store.promise?, h.promises]
  have hloading : ∀ l, s.loading? l = none := fun l ↦ by simp [Store.loading?, h.loadings]
  refine ⟨⟨⟨fun p _ ↦ trivial, fun p hp ↦ ?_⟩, fun x p hp ↦ ?_⟩, fun l r hr ↦ ?_⟩
  · exfalso
    cases hp with
    | @reaction q r hr _ => simp [Store.reactions, hpromise] at hr
    | job hj _ => simp [h.jobs] at hj
    | suspended hl => simp [h.suspended] at hl
    | loading _ hl _ => simp [hloading] at hl
  · exfalso
    obtain ⟨r, hr, hcapability⟩ := Store.capability?_eq_some.1 hp
    simp [(h.source x r hr).2.2.2.2.1] at hcapability
  · exact absurd hr (by simp [State.store, hloading])

/-! ## Questions to the host -/

/-- The question that what comes next puts to the host. -/
def Next.question? : Next → Option HostQuestion
  | .goto (.ask q) | .call (.ask q) _ => some q
  | _ => none

theorem Machine.question?_apply (fs : List Frame) (x : Store × Next) :
    (apply fs x).question? = x.2.question? := by
  obtain ⟨s, n⟩ := x
  cases n with
  | goto t => cases t <;> rfl
  | call t f => cases t <;> rfl
  | give r => rfl

theorem Next.question?_of_isLoad {n : Next} (h : n.isLoad = false) : n.question? = none := by
  cases n with
  | goto t => cases t <;> first | rfl | contradiction
  | call t f => cases t <;> first | rfl | contradiction
  | give r => rfl

/-- Only a walk that loads asks for a module, and its operation goes on then. -/
theorem Task.asks_advance (s : Store) {t : Task} {call : LoadCall} (ht : ∀ q, t ≠ .ask q)
    (h : (t.advance s).2.question? = some (.load call)) :
    (t.advance s).1.isLoading call.loading = true := by
  cases hl : t.isLoad with
  | false =>
    rcases Task.isLoad_advance s hl with hload | ⟨x, heq⟩
    · rw [Next.question?_of_isLoad hload] at h
      contradiction
    · rw [heq] at h
      cases h
  | true =>
    cases t with
    | loading w =>
      obtain ⟨l, frames⟩ := w
      simp only [advance, LoadWalk.advance] at h ⊢
      cases hgo : s.isLoading l with
      | false =>
        rw [hgo] at h
        contradiction
      | true =>
        rw [hgo] at h
        simp only [Bool.not_true, Bool.false_eq_true, if_false] at h ⊢
        rcases frames with _ | ⟨⟨m, _ | ⟨q, qs⟩⟩, rest⟩
        · contradiction
        · contradiction
        · dsimp only at h ⊢
          split at h
          · split at h <;> contradiction
          · obtain rfl : ⟨l, m, q⟩ = call := by simpa [LoadStep.next, Next.question?] using h
            obtain ⟨r, hr, hlr⟩ := Store.isLoading_iff.1 hgo
            rw [show (LoadStep.next _ _).1 = s.modifyLoading l _ from rfl, Store.isLoading,
              Store.loading?_modifyLoading, if_pos rfl, hr]
            exact hlr
    | load m hostDefined =>
      simp only [advance] at h
      split at h <;> contradiction
    | ask q => exact absurd rfl (ht q)
    | answers as =>
      rcases as with _ | ⟨a, rest⟩
      · contradiction
      · simp only [advance] at h
        split at h <;> contradiction
    | _ => contradiction

theorem Frame.question?_resume (s : Store) (r : Result) (f : Frame) :
    (f.resume s r).2.question? = none := by
  cases hl : f.isLoad with
  | false => exact Next.question?_of_isLoad (Frame.isLoad_resume s r hl)
  | true => cases f <;> first | rfl | contradiction

/-- When the host is asked for a module, the operation that asks goes on. -/
def State.Asks (st : State) : Prop :=
  ∀ a M call, st = .busy a M → M.question? = some (.load call) →
    M.store.isLoading call.loading = true

theorem State.asks_idle (s : Store) : (State.idle s).Asks := fun _ _ _ heq ↦ by cases heq

theorem Machine.asks_step {M : Machine} {call : LoadCall}
    (h : M.question? = some (.load call) → M.store.isLoading call.loading = true)
    (hq : M.step.question? = some (.load call)) : M.step.store.isLoading call.loading = true := by
  rcases hnext : M.next? with _ | x
  · rw [step_of_next?_eq_none hnext] at hq ⊢
    exact h hq
  rw [step_of_next? hnext, question?_apply] at hq
  rw [step_of_next? hnext, store_apply]
  obtain ⟨s, control, fs⟩ := M
  rcases control with t | r
  · obtain rfl : x = t.advance s := advance_of_next? hnext
    refine Task.asks_advance s (fun q ↦ ?_) hq
    rintro rfl
    contradiction
  · rcases fs with _ | ⟨f, fs⟩
    · contradiction
    obtain rfl : x = f.resume s r := (Option.some.inj hnext).symm
    rw [Frame.question?_resume] at hq
    contradiction

theorem State.Asks.turn {st st' : State} {P : Machine → Machine → Prop} (h : st.Asks)
    (ht : Turn P st st') : st'.Asks := by
  intro b N call heq hq
  cases ht with
  | call a ha =>
    cases a with
    | namespaceOf m phase =>
      obtain rfl := Option.some.inj ha
      contradiction
    | settle label c =>
      obtain ⟨p, -, rfl⟩ := Option.map_eq_some_iff.1 ha
      contradiction
    | job =>
      simp only [Act.begin] at ha
      split at ha
      · contradiction
      · obtain rfl := Option.some.inj ha
        obtain ⟨-, rfl⟩ := State.busy.inj heq
        contradiction
    | _ =>
      obtain rfl := Option.some.inj ha
      obtain ⟨-, rfl⟩ := State.busy.inj heq
      contradiction
  | @step a M hP =>
    obtain ⟨-, rfl⟩ := State.busy.inj heq
    exact Machine.asks_step (h a M call rfl) hq
  | @consult a M q s _ hs =>
    obtain ⟨-, rfl⟩ := State.busy.inj heq
    have hgo := h a M call rfl hq
    rw [Store.isLoading, Store.loading?_congr hs.aside.steady.loadings]
    exact hgo
  | @answer a M q as hq' =>
    obtain ⟨-, rfl⟩ := State.busy.inj heq
    obtain ⟨s, control, fs⟩ := M
    obtain rfl : control = _ := Machine.control_of_question? hq'
    contradiction
  | finish => contradiction

/-! ## Answers that are refused -/

namespace Store

variable {s s' : Store} {l : LoadingId} {e : ErrorId} {a : LoadAnswer}

/-- An answer that was refused: what was given to modules stays as it is, and an operation that goes
on ends with a type error. -/
structure Refuses (s : Store) (l : LoadingId) (s' : Store) : Prop where
  loaded : ∀ m, s'.loaded? m = s.loaded? m
  rejects : ∀ r, s.loading? l = some r → r.isLoading = true →
    (∃ e, s'.promise? r.promise = some (.rejected e) ∧ (s'.error e).kind = .typeError) ∧
      ∃ r', s'.loading? l = some r' ∧ r'.isLoading = false

theorem promise?_of_outcome? {p : PromiseId} {c : Completion} (h : s.outcome? p = some c) :
    s.promise? p = some (settledState c) := by
  obtain ⟨P, hP, hc⟩ := Option.bind_eq_some_iff.1 h
  rw [hP]
  cases P with
  | pending rs => contradiction
  | fulfilled =>
    obtain rfl := Option.some.inj hc
    rfl
  | rejected e =>
    obtain rfl := Option.some.inj hc
    rfl

theorem error_failLoading (s : Store) (l : LoadingId) (e x : ErrorId) :
    (s.failLoading l e).error x = s.error x := by
  have herrors : (s.failLoading l e).errors = s.errors := by
    unfold failLoading
    split
    · rfl
    · unfold reject settle
      split
      · unfold enqueue
        split <;> rfl
      · rfl
  rw [error, herrors, error]

/-- The operation fails, so its promise is rejected. -/
theorem promise?_failLoading {r : Loading} (hr : s.loading? l = some r)
    (hmade : (s.promise? r.promise).isSome) (hpending : s.outcome? r.promise = none) :
    (s.failLoading l e).promise? r.promise = some (.rejected e) := by
  refine promise?_of_outcome? (c := .error e) ?_
  simp only [failLoading, hr]
  refine (outcome?_settle (s := s.modifyLoading l _) hmade r.promise (.error e)).trans ?_
  rw [if_pos rfl, show outcome? (s.modifyLoading l _) r.promise = none from hpending]
  rfl

/-- An answer that is found to be a mistake of the host is refused. -/
theorem refuses_of_checkAnswer {f : Loading → Loading} (hcheck : s.checkAnswer a = (.error e, s'))
    (hm : s'.modules = s.modules) (hf : Alters a.call.loading f s s')
    (hkeeps : ∀ r, (f r).promise = r.promise ∧ (f r).isLoading = r.isLoading)
    (he : (s'.error e).kind = .typeError)
    (hkept : ∀ r, s.loading? a.call.loading = some r → r.Kept s) :
    s.Refuses a.call.loading (s.takeAnswer a).1 := by
  have htaken : (s.takeAnswer a).1 =
      if s'.isLoading a.call.loading then s'.failLoading a.call.loading e else s' := by
    simp only [takeAnswer, hcheck]
    cases s'.isLoading a.call.loading <;> rfl
  rw [htaken]
  refine ⟨fun m ↦ ?_, fun r hr hlr ↦ ?_⟩
  · have hmodules : (if s'.isLoading a.call.loading then s'.failLoading a.call.loading e
        else s').modules = s.modules := by
      split
      · exact (modules_failLoading s' _ e).trans hm
      · exact hm
    rw [loaded?, source?_congr hmodules, loaded?]
  · obtain ⟨hpromise, hloading⟩ := hkeeps r
    have hself := hf.self hr
    have hgo : s'.isLoading a.call.loading = true :=
      isLoading_iff.2 ⟨_, hself, hloading.trans hlr⟩
    have hsame : s'.promise? r.promise = s.promise? r.promise := by
      rw [promise?, hf.promises, promise?]
    have hkept := hkept r hr
    have hover := loading?_failLoading s' a.call.loading e a.call.loading
    rw [if_pos rfl, hself] at hover
    rw [if_pos hgo]
    have hkind := congrArg ThrownError.kind (error_failLoading s' a.call.loading e e)
    refine ⟨⟨e, ?_, hkind.trans he⟩, _, hover, rfl⟩
    rw [← hpromise]
    refine promise?_failLoading hself ?_ ?_
    · rw [hpromise, hsame]
      exact hkept.made
    · rw [hpromise, outcome?_eq hsame]
      exact hkept.settles.2 hlr

theorem kind_throw (s : Store) (kind : ErrorKind) (message : String) :
    ((s.throw kind message).2.error (s.throw kind message).1).kind = kind := by
  simp [throw, error]

/-- The operation does not wait for the request. -/
theorem takeAnswer_unasked (h : s.isOutstanding a.call = false)
    (hkept : ∀ r, s.loading? a.call.loading = some r → r.Kept s) :
    s.Refuses a.call.loading (s.takeAnswer a).1 := by
  have hcheck : s.checkAnswer a = (.error (s.throw .typeError ("Module request '" ++
      a.call.request.specifier ++ "' was not awaiting completion")).1, (s.throw .typeError
      ("Module request '" ++ a.call.request.specifier ++ "' was not awaiting completion")).2) := by
    rw [checkAnswer, h]
    rfl
  exact refuses_of_checkAnswer hcheck rfl (.of_duties rfl) (fun _ ↦ ⟨rfl, rfl⟩)
    (s.kind_throw _ _) hkept

/-- Another module was given for the request before. -/
theorem takeAnswer_contradicting {m known : ModuleId} (h : s.isOutstanding a.call = true)
    (ha : a.outcome = .ok m) (hknown : s.imported? a.call.referrer a.call.request = some known)
    (hne : known ≠ m) (hkept : ∀ r, s.loading? a.call.loading = some r → r.Kept s) :
    s.Refuses a.call.loading (s.takeAnswer a).1 := by
  have hcheck : s.checkAnswer a = (.error ((s.takeOutstanding a.call).throw .typeError
      ("Module request '" ++ a.call.request.specifier ++ "' resolved to two different modules")).1,
      ((s.takeOutstanding a.call).throw .typeError ("Module request '" ++
        a.call.request.specifier ++ "' resolved to two different modules")).2) := by
    have hknown' : (s.takeOutstanding a.call).imported? a.call.referrer a.call.request =
        some known := hknown
    simp only [checkAnswer, h, ha, if_true, recordLoaded, hknown', if_neg hne]
  have htaken : Alters a.call.loading _ s (s.takeOutstanding a.call) := .modifyLoading s _ _
  exact refuses_of_checkAnswer hcheck rfl (htaken.trans (.of_duties rfl)) (fun _ ↦ ⟨rfl, rfl⟩)
    (kind_throw _ _ _) hkept

end Store

/-! ## Runs -/

/-- What is so of loading operations in the course of a run. -/
structure State.Minds (st : State) : Prop where
  charted : st.Charted
  keeps : st.Keeps
  asks : st.Asks

variable {s₀ : Store} {st st' : State}

theorem State.Minds.turns (h : st.Minds) (ht : Turns Machine.Fair st st') : st'.Minds := by
  induction ht with
  | refl => exact h
  | tail _ ht ih => exact ⟨ih.charted.turn ht, ih.keeps.turn ih.charted ht, ih.asks.turn ht⟩

theorem State.Minds.start (hs : s₀.Unread) (hp : s₀.Pristine) : (State.idle s₀).Minds :=
  ⟨⟨hs.charts, hs.refers _⟩, hp.keeps, State.asks_idle s₀⟩

/-- An operation that has ended stays so, and its promise stays as it is. -/
theorem State.Minds.ended {l : LoadingId} {r : Loading} (h : st.Minds)
    (hr : st.store.loading? l = some r) (hl : r.isLoading = false)
    (ht : Turns Machine.Fair st st') : ∃ r', st'.store.loading? l = some r' ∧
      r'.isLoading = false ∧ r'.promise = r.promise ∧
        st'.store.promise? r.promise = st.store.promise? r.promise := by
  obtain ⟨c, hc⟩ : ∃ c, st.store.outcome? r.promise = some c := by
    refine Option.ne_none_iff_exists'.1 fun hnone ↦ ?_
    have hgo := (h.keeps.kept l r hr).1.settles.1 hnone
    exact absurd (hl.symm.trans hgo) Bool.false_ne_true
  suffices hlast : ∃ r', st'.store.loading? l = some r' ∧ r'.isLoading = false ∧
      r'.promise = r.promise ∧ st'.store.outcome? r.promise = some c by
    obtain ⟨r', hr', hl', hp, ho⟩ := hlast
    refine ⟨r', hr', hl', hp, ?_⟩
    rw [Store.promise?_of_outcome? ho, Store.promise?_of_outcome? hc]
  induction ht with
  | refl => exact ⟨r, hr, hl, rfl, hc⟩
  | @tail y z hy ht ih =>
    obtain ⟨r', hr', hl', hp, ho⟩ := ih
    have hminds := h.turns hy
    obtain ⟨r'', hr'', hturns⟩ := hminds.keeps.turns hminds.charted ht hr'
    obtain ⟨hl'', ho'⟩ := hturns.ended hl'
    refine ⟨r'', hr'', hl'', hturns.promise.trans hp, ?_⟩
    rw [← hp, ho', hp]
    exact ho

/-- Between two calls, an operation that goes on counts the requests that the host has not answered,
and there are some. -/
theorem State.Minds.idle {s : Store} {l : LoadingId} {r : Loading} (h : (State.idle s).Minds)
    (hr : s.loading? l = some r) (hl : r.isLoading = true) :
    r.pending = r.outstanding.length ∧ 1 ≤ r.outstanding.length := by
  have hcharts : s.Charts [] [] := h.charted.1
  have hcount := (hcharts.charted l r hr hl).pending
  have hsome := (h.keeps.kept l r hr).1.pending hl
  simp only [walksOf, targetsOf, List.filter_nil, List.map_nil, List.sum_nil, List.length_nil,
    Nat.zero_add, Nat.add_zero] at hcount
  exact ⟨hcount, hcount ▸ hsome⟩

theorem Machine.step_answers {M : Machine} {x : LoadAnswer} {rest : List LoadAnswer}
    (h : M.control = .run (.answers (x :: rest))) : M.step.store = (M.store.takeAnswer x).1 := by
  obtain ⟨s, control, fs⟩ := M
  obtain rfl : control = _ := h
  simp only [step, Task.advance]
  split <;> next heq => rw [heq, store_apply]

/-- Whatever a host does, loading operations keep their count. An operation that goes on has,
between two calls, as many things to deal with as there are requests that the host has not answered,
and at least one; at any time it has at least one, and a turn takes away no more than one. An answer
to a request that the operation does not wait for is refused, and so is one that contradicts an
earlier answer: nothing that was given to modules changes, and if the operation goes on, it ends,
and its promise is rejected with a type error. An operation that has ended stays so, its promise
stays as it is, and the host is asked for nothing more. -/
theorem host_cannot_spoil_loading (hs : s₀.Unread) (hp : s₀.Pristine)
    (h : Turns Machine.Fair (.idle s₀) st) :
    (∀ s l r, st = .idle s → s.loading? l = some r → r.isLoading = true →
      r.pending = r.outstanding.length ∧ 1 ≤ r.outstanding.length) ∧
    (∀ l r, st.store.loading? l = some r → r.isLoading = true → 1 ≤ r.pending) ∧
    (∀ l r st', st.store.loading? l = some r → Turn Machine.Fair st st' →
      ∃ r', st'.store.loading? l = some r' ∧ r.pending ≤ r'.pending + 1) ∧
    (∀ a M x rest, st = .busy a M → M.control = .run (.answers (x :: rest)) →
      M.store.isOutstanding x.call = false → M.store.Refuses x.call.loading M.step.store) ∧
    (∀ a M x rest m known, st = .busy a M → M.control = .run (.answers (x :: rest)) →
      M.store.isOutstanding x.call = true → x.outcome = .ok m →
      M.store.imported? x.call.referrer x.call.request = some known → known ≠ m →
      M.store.Refuses x.call.loading M.step.store) ∧
    ∀ l r st', st.store.loading? l = some r → r.isLoading = false → Turns Machine.Fair st st' →
      (∃ r', st'.store.loading? l = some r' ∧ r'.isLoading = false ∧ r'.promise = r.promise) ∧
      st'.store.promise? r.promise = st.store.promise? r.promise ∧
      ∀ a M call, st' = .busy a M → M.question? = some (.load call) → call.loading ≠ l := by
  have hst : st.Minds := (State.Minds.start hs hp).turns h
  refine ⟨fun s l r heq hr hl ↦ ?_, fun l r hr hl ↦ ?_, fun l r st' hr ht ↦ ?_,
    fun a M x rest heq hc hout ↦ ?_, fun a M x rest m known heq hc hout hx hknown hne ↦ ?_,
    fun l r st' hr hl ht ↦ ?_⟩
  · subst heq
    exact hst.idle hr hl
  · exact (hst.keeps.kept l r hr).1.pending hl
  · obtain ⟨r', hr', hturns⟩ := hst.keeps.turns hst.charted ht hr
    exact ⟨r', hr', hturns.falls⟩
  · subst heq
    rw [Machine.step_answers hc]
    exact Store.takeAnswer_unasked hout fun r hr ↦ (hst.keeps.kept _ r hr).1
  · subst heq
    rw [Machine.step_answers hc]
    exact Store.takeAnswer_contradicting hout hx hknown hne fun r hr ↦ (hst.keeps.kept _ r hr).1
  · obtain ⟨r', hr', hl', hpromise, hsame⟩ := hst.ended hr hl ht
    refine ⟨⟨r', hr', hl', hpromise⟩, hsame, fun a M call heq hq hcall ↦ ?_⟩
    have hgo := (hst.turns ht).asks a M call heq hq
    subst heq
    obtain ⟨r'', hr'', hl''⟩ := Store.isLoading_iff.1 (hcall ▸ hgo)
    obtain rfl := Option.some.inj (hr'.symm.trans hr'')
    exact absurd (hl'.symm.trans hl'') Bool.false_ne_true

/-- The host gives no answer, and the call comes back. -/
def mutualGraph.waiting : Machine := Machine.step^[5] (asked.answer [])

/-- The host answers a request that it was never asked for. -/
def mutualGraph.misled : Machine :=
  .start waiting.store (.answers [⟨⟨⟨0⟩, ⟨0⟩, { specifier := "c" }⟩, .ok ⟨1⟩⟩])

theorem mutualGraph.pristine : mutualGraph.Pristine := by
  have hsynthetic : ∀ m, mutualGraph.synthetic? m = none := by
    rintro ⟨_ | _ | n⟩ <;> rfl
  refine ⟨⟨fun m r hr ↦ ?_, fun m r hr ↦ ?_, rfl, rfl⟩, rfl, rfl⟩
  · obtain ⟨name, rfl⟩ := mutualGraph.source_eq hr
    exact ⟨.inl rfl, rfl, rfl, rfl, rfl, rfl, rfl⟩
  · rw [hsynthetic] at hr
    contradiction

theorem host_cannot_spoil_loading_mutualGraph :
    mutualGraph.Unread ∧ mutualGraph.Pristine ∧
      Turns Machine.Fair (.idle mutualGraph) (.idle mutualGraph.waiting.store) ∧
      (∃ r, mutualGraph.waiting.store.loading? ⟨0⟩ = some r ∧ r.isLoading = true ∧
        r.pending = r.outstanding.length ∧ 1 ≤ r.outstanding.length) ∧
      ∃ a, Turns Machine.Fair (.idle mutualGraph) (.busy a mutualGraph.misled) ∧
        mutualGraph.misled.store.Refuses ⟨0⟩ mutualGraph.misled.step.store := by
  have hsome : ∀ {α : Type} {o : Option α}, o.isSome = true → ∃ x, o = some x :=
    Option.isSome_iff_exists.1
  obtain ⟨_, hasked⟩ := hsome (o := mutualGraph.asked.question?) (by decide +kernel)
  obtain ⟨_, hresult⟩ := hsome (o := mutualGraph.waiting.result?) (by decide +kernel)
  have hfair := Machine.fair_of_fairNow
  have hwaits : Turns Machine.Fair (.idle mutualGraph) (.idle mutualGraph.waiting.store) :=
    .trans (.head (.call (.load ⟨0⟩ none) rfl) (Turns.steps hfair (by decide +kernel))) <|
    .trans (.head (.answer _ hasked) (Turns.steps hfair (by decide +kernel))) <|
    .single (.finish hresult)
  have hmisled := hwaits.tail
    (.call (.answer ⟨⟨⟨0⟩, ⟨0⟩, { specifier := "c" }⟩, .ok ⟨1⟩⟩) rfl)
  obtain ⟨r, hr⟩ := hsome (o := mutualGraph.waiting.store.loading? ⟨0⟩) (by decide +kernel)
  have hgo : mutualGraph.waiting.store.isLoading ⟨0⟩ = true := by decide +kernel
  have hl : r.isLoading = true := by simpa [Store.isLoading, hr] using hgo
  refine ⟨mutualGraph.unread, mutualGraph.pristine, hwaits, ⟨r, hr, hl, ?_⟩, _, hmisled, ?_⟩
  · exact (host_cannot_spoil_loading mutualGraph.unread mutualGraph.pristine hwaits).1 _ ⟨0⟩ r rfl
      hr hl
  · exact (host_cannot_spoil_loading mutualGraph.unread mutualGraph.pristine hmisled).2.2.2.1 _ _ _
      _ rfl rfl (by decide +kernel)

end EcmaModules
