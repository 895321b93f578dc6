import EcmaModules.Proofs.Ledger
import EcmaModules.Proofs.Tours

/-!
# Who may settle a promise

Promises are settled from many sides: by bodies that await, by jobs, by loading operations, by the
caller who settles what a suspended body waits for. The promise of an evaluation is settled by
evaluation alone. None of the others ever gets hold of it: what a body, a job or a loading operation
may settle was made for it, and is handed on from body to job and back.

So the promises are divided in two. Those that others may settle have a property that every new
promise has as well, and it is kept that nobody gets hold of one without it. Then one without it has
the same outcome after each of their steps.
-/

namespace EcmaModules

/-! ## What is handed on -/

/-- The promises that a job with the reaction may settle. -/
def Reaction.targets : Reaction → List PromiseId
  | .resumeBody _ capability _ => [capability]
  | .watch w => w.resolve.toList ++ w.settle.toList
  | _ => []

/-- The promises that a task may settle, or hand on. -/
def Task.targets : Task → List PromiseId
  | .body b => b.mode.capability?.toList
  | .job j => j.reaction.targets
  | _ => []

/-- The promises that may be settled, or handed on, when the result for the frame is there. -/
def Frame.targets : Frame → List PromiseId
  | .bodyRead b _ _ | .bodyLink b _ | .bodyEvaluate b _ => b.mode.capability?.toList
  | .executed _ _ capability _ | .freed _ capability _ => capability.toList
  | _ => []

/-- The promises that what comes next may settle. -/
def Next.targets : Next → List PromiseId
  | .goto t => t.targets
  | .call t f => t.targets ++ f.targets
  | .give _ => []

/-- The promises that a machine may settle, apart from those it finds in the store. -/
def Machine.targets (M : Machine) : List PromiseId :=
  M.current.targets ++ M.frames.flatMap Frame.targets

theorem Machine.targets_apply {s : Store} {n : Next} {fs : List Frame} :
    (Machine.apply fs (s, n)).targets = n.targets ++ fs.flatMap Frame.targets := by
  cases n <;> simp [apply, targets, current, Next.targets]

/-- What others than evaluation may settle: promises with a property, among them the promises of
loading operations with another one. -/
structure Fund where
  promises : PromiseId → Prop
  loadings : LoadingId → Prop := fun _ ↦ True

instance : CoeFun Fund fun _ ↦ PromiseId → Prop := ⟨Fund.promises⟩

namespace Store

/-- How the promise was settled, if it was. -/
def outcome? (s : Store) (p : PromiseId) : Option Completion :=
  (s.promise? p).bind Promise.completion?

/-- Someone who is waiting, or a loading operation with a property, may settle the promise. -/
inductive Entrusts (s : Store) (K : LoadingId → Prop) (p : PromiseId) : Prop where
  | reaction {q : PromiseId} {r : Reaction} : r ∈ s.reactions q → p ∈ r.targets → Entrusts s K p
  | job {j : Job} : j ∈ s.jobs → p ∈ j.reaction.targets → Entrusts s K p
  | suspended {label : String} : (label, p) ∈ s.stage.suspended → Entrusts s K p
  | loading {l : LoadingId} {r : Loading} :
      K l → s.loading? l = some r → r.promise = p → Entrusts s K p

/-- The promises are there, and may be settled by others than evaluation. -/
abbrev Lends (s : Store) (E : Fund) (ps : List PromiseId) : Prop :=
  ∀ p ∈ ps, E p ∧ (s.promise? p).isSome

/-- What others may settle is among the promises with a property that all new ones will have. -/
structure Trusts (s : Store) (E : Fund) : Prop where
  new : ∀ p, s.promise? p = none → E p
  entrusts : ∀ p, s.Entrusts E.loadings p → E p ∧ (s.promise? p).isSome

/-- A change after which others still may settle only promises with the property. -/
structure Upholds (E : Fund) (s s' : Store) : Prop where
  trusts : s'.Trusts E
  grows : ∀ p, (s.promise? p).isSome → (s'.promise? p).isSome

/-- A change that leaves alone the promises without the property. -/
structure Deals (E : Fund) (s s' : Store) : Prop where
  trusts : s'.Trusts E
  grows : ∀ p, (s.promise? p).isSome → (s'.promise? p).isSome
  keeps : ∀ p, ¬E p → s'.outcome? p = s.outcome? p

variable {E : Fund} {s s' s'' : Store}

theorem outcome?_eq {p : PromiseId} (h : s'.promise? p = s.promise? p) :
    s'.outcome? p = s.outcome? p := by
  unfold outcome?
  rw [h]

theorem Lends.mono {ps : List PromiseId} (h : s.Lends E ps)
    (hs : ∀ p, (s.promise? p).isSome → (s'.promise? p).isSome) : s'.Lends E ps :=
  fun p hp ↦ ⟨(h p hp).1, hs p (h p hp).2⟩

theorem Trusts.mono (h : s.Trusts E) (hgrows : ∀ p, (s.promise? p).isSome → (s'.promise? p).isSome)
    (hs : ∀ p, s'.Entrusts E.loadings p →
      s.Entrusts E.loadings p ∨ E p ∧ (s'.promise? p).isSome) : s'.Trusts E := by
  refine ⟨fun p hp ↦ h.new p ?_, fun p hp ↦ ?_⟩
  · by_contra hne
    have := hgrows p (Option.isSome_iff_ne_none.2 hne)
    simp [hp] at this
  · rcases hs p hp with hp' | hp'
    · exact ⟨(h.entrusts p hp').1, hgrows p (h.entrusts p hp').2⟩
    · exact hp'

/-! ## Changes of promises -/

/-- The promises are as before, and whoever waits did so before. -/
theorem Trusts.of_eq (h : s.Trusts E) (hpromises : s'.promises = s.promises)
    (hjobs : s'.jobs ⊆ s.jobs) (hsuspended : s'.stage.suspended = s.stage.suspended)
    (hloadings : ∀ l r', s'.loading? l = some r' →
      ∃ r, s.loading? l = some r ∧ r.promise = r'.promise) : s'.Trusts E := by
  have hpromise : ∀ p, s'.promise? p = s.promise? p := fun p ↦ by
    rw [promise?, promise?, hpromises]
  refine h.mono (fun p hp ↦ hpromise p ▸ hp) fun p hp ↦ .inl ?_
  cases hp with
  | reaction hr hp => exact .reaction (reactions_eq (hpromise _) ▸ hr) hp
  | job hj hp => exact .job (hjobs hj) hp
  | suspended hl => exact .suspended (hsuspended ▸ hl)
  | loading hK hl hp =>
    obtain ⟨r, hr, heq⟩ := hloadings _ _ hl
    exact .loading hK hr (heq.trans hp)

theorem Upholds.settle (h : s.Trusts E) (p : PromiseId) (c : Completion) :
    s.Upholds E (s.settle p c) := by
  by_cases hp : ∃ rs, s.promise? p = some (.pending rs)
  swap
  · rw [settle_of_not_pending c (not_exists.1 hp)]
    exact ⟨h, fun _ ↦ id⟩
  obtain ⟨rs, hp⟩ := hp
  have hgrows : ∀ q, (s.promise? q).isSome → ((s.settle p c).promise? q).isSome := fun q hq ↦ by
    rw [promise?_settle hp]
    split
    · rfl
    · exact hq
  refine ⟨h.mono hgrows fun q hq ↦ .inl ?_, hgrows⟩
  have hsettle := settle_pending c hp
  cases hq with
  | @reaction x r hr hq =>
    unfold reactions at hr
    rw [promise?_settle hp] at hr
    split at hr
    · next heq =>
      split at heq
      · exact absurd (Option.some.inj heq) (settledState_ne_pending c _)
      · exact .reaction (q := x) (by simpa [reactions, heq] using hr) hq
    · exact absurd hr List.not_mem_nil
  | @job j hj hq =>
    rw [hsettle, jobs_enqueue] at hj
    have hcases : j ∈ s.jobs ∨ j ∈ rs.map fun r ↦ ⟨r, c⟩ := by
      split at hj
      · exact List.mem_append.1 hj
      · exact .inl hj
    rcases hcases with hj | hj
    · exact .job hj hq
    · obtain ⟨r, hr, rfl⟩ := List.mem_map.1 hj
      exact .reaction (q := p) (by simpa [reactions, hp] using hr) hq
  | suspended hl =>
    rw [hsettle, enqueue] at hl
    split at hl <;> exact .suspended hl
  | loading hK hl hq =>
    rw [hsettle, enqueue] at hl
    split at hl <;> exact .loading hK hl hq

theorem outcome?_settle {p : PromiseId} (hp : (s.promise? p).isSome) (q : PromiseId)
    (c : Completion) :
    (s.settle p c).outcome? q =
      if q = p then some ((s.outcome? p).getD c) else s.outcome? q := by
  obtain ⟨P, hP⟩ := Option.isSome_iff_exists.1 hp
  have hcompletion : (settledState c).completion? = some c := by rcases c with e | ⟨⟩ <;> rfl
  by_cases hrs : ∃ rs, P = .pending rs
  · obtain ⟨rs, rfl⟩ := hrs
    unfold outcome?
    rw [promise?_settle hP, hP]
    split
    · exact hcompletion
    · rfl
  · rw [settle_of_not_pending c (fun rs hrs' ↦ hrs ⟨rs, Option.some.inj (hP.symm.trans hrs')⟩)]
    split
    · next heq =>
      subst heq
      unfold outcome?
      rw [hP]
      cases P with
      | pending rs => exact absurd ⟨rs, rfl⟩ hrs
      | fulfilled => rfl
      | rejected e => rfl
    · rfl

theorem promise?_addPromise_fst (s : Store) (P : Promise) :
    s.promise? (s.addPromise P).1 = none := by
  simp [Store.addPromise, promise?]

/-- The promises that are there stay what they are. -/
theorem promise?_addPromise_of_isSome (P : Promise) {p : PromiseId} (hp : (s.promise? p).isSome) :
    (s.addPromise P).2.promise? p = s.promise? p := by
  rw [promise?_addPromise, if_neg]
  rintro he
  simp [promise?, he] at hp

/-- Nobody can settle a new promise yet. -/
theorem Entrusts.of_addPromise {P : Promise} (hP : ∀ rs, P = .pending rs → rs = [])
    {K : LoadingId → Prop} {p : PromiseId} (h : (s.addPromise P).2.Entrusts K p) :
    s.Entrusts K p := by
  cases h with
  | @reaction q r hr hp =>
    refine .reaction (q := q) ?_ hp
    by_cases hq : (s.promise? q).isSome
    · rwa [reactions_eq (promise?_addPromise_of_isSome P hq)] at hr
    · unfold reactions at hr
      rw [promise?_addPromise] at hr
      split at hr
      · next rs heq =>
        split at heq
        · rw [hP rs (Option.some.inj heq)] at hr
          exact absurd hr List.not_mem_nil
        · simp [heq] at hq
      · exact absurd hr List.not_mem_nil
  | job hj hp => exact .job hj hp
  | suspended hl => exact .suspended hl
  | loading hK hl hp => exact .loading hK hl hp

/-! ### Who waits -/

/-- What decides who may settle which promise, and what becomes of the jobs. -/
def duties (s : Store) :
    Array Promise × List Job × List (String × PromiseId) × Array Loading × Bool :=
  (s.promises, s.jobs, s.stage.suspended, s.loadings, s.keepsJobs)

namespace Upholds

theorem refl (h : s.Trusts E) : s.Upholds E s := ⟨h, fun _ ↦ id⟩

theorem trans (h : Upholds E s s') (h' : Upholds E s' s'') : Upholds E s s'' :=
  ⟨h'.trusts, fun p hp ↦ h'.grows p (h.grows p hp)⟩

theorem of_deals (h : Deals E s s') : Upholds E s s' := ⟨h.trusts, h.grows⟩

end Upholds

namespace Deals

theorem refl (h : s.Trusts E) : s.Deals E s := ⟨h, fun _ ↦ id, fun _ _ ↦ rfl⟩

theorem trans (h : Deals E s s') (h' : Deals E s' s'') : Deals E s s'' :=
  ⟨h'.trusts, fun p hp ↦ h'.grows p (h.grows p hp),
    fun p hp ↦ (h'.keeps p hp).trans (h.keeps p hp)⟩

theorem of_eq (h : s.Trusts E) (hpromises : s'.promises = s.promises) (hjobs : s'.jobs ⊆ s.jobs)
    (hsuspended : s'.stage.suspended = s.stage.suspended)
    (hloadings : ∀ l r', s'.loading? l = some r' →
      ∃ r, s.loading? l = some r ∧ r.promise = r'.promise) : s.Deals E s' := by
  have hpromise : ∀ p, s'.promise? p = s.promise? p := fun p ↦ by
    rw [promise?, promise?, hpromises]
  exact ⟨h.of_eq hpromises hjobs hsuspended hloadings, fun p hp ↦ hpromise p ▸ hp,
    fun p _ ↦ outcome?_eq (hpromise p)⟩

theorem of_duties (h : s.Trusts E) (hd : s'.duties = s.duties) : s.Deals E s' := by
  simp only [duties, Prod.mk.injEq] at hd
  obtain ⟨hpromises, hjobs, hsuspended, hloadings, -⟩ := hd
  refine of_eq h hpromises (hjobs ▸ List.Subset.refl _) hsuspended fun l r' hl ↦ ⟨r', ?_, rfl⟩
  rwa [loading?, ← hloadings]

/-- An operation goes on, with the same promise. -/
theorem modifyLoading (h : s.Trusts E) (l : LoadingId) {f : Loading → Loading}
    (hf : ∀ r, (f r).promise = r.promise) : s.Deals E (s.modifyLoading l f) := by
  refine of_eq h rfl (List.Subset.refl _) rfl fun x r' hr' ↦ ?_
  rw [loading?, Store.modifyLoading, Array.getElem?_modify] at hr'
  split at hr'
  · obtain ⟨r, hr, rfl⟩ := Option.map_eq_some_iff.1 hr'
    exact ⟨r, hr, (hf r).symm⟩
  · exact ⟨r', hr', rfl⟩

theorem settle (h : s.Trusts E) {p : PromiseId} (hp : s.Lends E [p]) (c : Completion) :
    s.Deals E (s.settle p c) := by
  obtain ⟨hE, hsome⟩ := hp p List.mem_cons_self
  refine ⟨(Upholds.settle h p c).trusts, (Upholds.settle h p c).grows, fun q hq ↦ ?_⟩
  rw [outcome?_settle hsome, if_neg (fun heq : q = p ↦ hq (heq ▸ hE))]

/-- A new promise that nobody waits for yet. -/
theorem addPromise (h : s.Trusts E) {P : Promise} (hP : ∀ rs, P = .pending rs → rs = []) :
    s.Deals E (s.addPromise P).2 ∧ (s.addPromise P).2.Lends E [(s.addPromise P).1] := by
  have hgrows : ∀ p, (s.promise? p).isSome → ((s.addPromise P).2.promise? p).isSome :=
    fun p hp ↦ promise?_addPromise_of_isSome P hp ▸ hp
  refine ⟨⟨h.mono hgrows fun p hp ↦ .inl (hp.of_addPromise hP), hgrows, fun p hp ↦ ?_⟩,
    fun p hp ↦ ?_⟩
  · refine outcome?_eq (promise?_addPromise_of_isSome P ?_)
    exact Option.isSome_iff_ne_none.2 fun hnone ↦ hp (h.new p hnone)
  · obtain rfl := List.mem_singleton.1 hp
    exact ⟨h.new _ (promise?_addPromise_fst s P), by rw [promise?_addPromise_self]; rfl⟩

theorem newPromise (h : s.Trusts E) :
    s.Deals E s.newPromise.2 ∧ s.newPromise.2.Lends E [s.newPromise.1] :=
  addPromise h fun _ hP ↦ by cases hP; rfl

theorem settledPromise (h : s.Trusts E) (c : Completion) :
    s.Deals E (s.settledPromise c).2 := by
  rcases c with e | ⟨⟩
  · exact (addPromise h fun _ hP ↦ by cases hP).1
  · exact (addPromise h fun _ hP ↦ by cases hP).1

/-- Jobs that may settle what others may settle. -/
theorem enqueue (h : s.Trusts E) {js : List Job}
    (hjs : ∀ j ∈ js, s.Lends E j.reaction.targets) : s.Deals E (s.enqueue js) := by
  have hpromise : ∀ p, (s.enqueue js).promise? p = s.promise? p := s.promise?_enqueue js
  refine ⟨h.mono (fun p hp ↦ hpromise p ▸ hp) fun p hp ↦ ?_, fun p hp ↦ hpromise p ▸ hp,
    fun p _ ↦ outcome?_eq (hpromise p)⟩
  cases hp with
  | reaction hr hp => exact .inl (.reaction (reactions_eq (hpromise _) ▸ hr) hp)
  | @job j hj hp =>
    rw [jobs_enqueue] at hj
    have hcases : j ∈ s.jobs ∨ j ∈ js := by
      split at hj
      · exact List.mem_append.1 hj
      · exact .inl hj
    rcases hcases with hj | hj
    · exact .inl (.job hj hp)
    · obtain ⟨hE, hsome⟩ := hjs j hj p hp
      exact .inr ⟨hE, hpromise p ▸ hsome⟩
  | suspended hl =>
    unfold Store.enqueue at hl
    split at hl <;> exact .inl (.suspended hl)
  | loading hK hl hp =>
    unfold Store.enqueue at hl
    split at hl <;> exact .inl (.loading hK hl hp)

theorem react (h : s.Trusts E) (p : PromiseId) {r : Reaction} (hr : s.Lends E r.targets) :
    s.Deals E (s.react p r) := by
  unfold Store.react
  split
  · next rs hp =>
    have hpromise : ∀ q, ({ s with promises := s.promises.set! p.index (.pending (rs ++ [r])) } :
        Store).promise? q = if q = p then some (.pending (rs ++ [r])) else s.promise? q :=
      fun q ↦ by
        rw [promise?_set, hp]
        simp
    have hgrows : ∀ q, (s.promise? q).isSome → (({ s with
        promises := s.promises.set! p.index (.pending (rs ++ [r])) } : Store).promise? q).isSome :=
      fun q hq ↦ by
        rw [hpromise]
        split
        · rfl
        · exact hq
    refine ⟨h.mono hgrows fun q hq ↦ ?_, hgrows, fun q _ ↦ ?_⟩
    · cases hq with
      | @reaction x r' hr' hq =>
        unfold reactions at hr'
        rw [hpromise] at hr'
        by_cases hx : x = p
        · rw [if_pos hx] at hr'
          rcases List.mem_append.1 hr' with hr' | hr'
          · exact .inl (.reaction (q := p) (by simpa [reactions, hp] using hr') hq)
          · obtain rfl := List.mem_singleton.1 hr'
            exact .inr ⟨(hr q hq).1, hgrows q (hr q hq).2⟩
        · rw [if_neg hx] at hr'
          exact .inl (.reaction (q := x) hr' hq)
      | job hj hq => exact .inl (.job hj hq)
      | suspended hl => exact .inl (.suspended hl)
      | loading hK hl hq => exact .inl (.loading hK hl hq)
    · unfold outcome?
      rw [hpromise]
      split
      · next hq => rw [hq, hp]; rfl
      · rfl
  · exact enqueue h (List.forall_mem_singleton.2 hr)
  · exact enqueue h (List.forall_mem_singleton.2 hr)
  · exact refl h

/-- A body comes to wait for the caller. -/
theorem suspend (h : s.Trusts E) {p : PromiseId} (hp : s.Lends E [p]) (label : String) :
    s.Deals E { s with stage := { s.stage with suspended := (label, p) :: s.stage.suspended } } := by
  refine ⟨h.mono (fun _ ↦ id) fun q hq ↦ ?_, fun _ ↦ id, fun _ _ ↦ rfl⟩
  cases hq with
  | reaction hr hq => exact .inl (.reaction hr hq)
  | job hj hq => exact .inl (.job hj hq)
  | suspended hl =>
    rcases List.mem_cons.1 hl with heq | hl
    · obtain ⟨-, rfl⟩ := Prod.mk.inj heq
      exact .inr (hp _ List.mem_cons_self)
    · exact .inl (.suspended hl)
  | loading hK hl hq => exact .inl (.loading hK hl hq)

/-- A loading operation starts. -/
theorem addLoading (h : s.Trusts E) {r : Loading} (hr : s.Lends E [r.promise]) :
    s.Deals E { s with loadings := s.loadings.push r } := by
  refine ⟨h.mono (fun _ ↦ id) fun q hq ↦ ?_, fun _ ↦ id, fun _ _ ↦ rfl⟩
  cases hq with
  | reaction hr hq => exact .inl (.reaction hr hq)
  | job hj hq => exact .inl (.job hj hq)
  | suspended hl => exact .inl (.suspended hl)
  | @loading l r' hK hl hq =>
    rw [loading?, Array.getElem?_push] at hl
    split at hl
    · obtain rfl := Option.some.inj hl
      exact .inr (hr q (hq ▸ List.mem_cons_self))
    · exact .inl (.loading hK hl hq)

end Deals

end Store

end EcmaModules
