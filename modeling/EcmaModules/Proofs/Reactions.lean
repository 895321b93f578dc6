import EcmaModules.Proofs.Custody

/-!
# What becomes of reactions

Promises are made, reactions are registered, promises are settled, and jobs are taken from the queue,
in any order: by bodies, by evaluation, by jobs that are being run, by the host. What was done is kept
in a log, with what was put into the queue each time. The log alone says what each promise is: it has
the first outcome that it was given, or waits with the reactions that were registered. It also says
what was put into the queue for a promise: every reaction once, in the order in which they were
registered, and with that outcome.

A reaction that comes late is put into the queue at once, the others wait for the promise. That the
order is the same nonetheless is since a promise is settled only once: all who came before are in the
queue by then (`Log.Tells.settle`), and whoever comes later goes behind them (`Log.Tells.register`).

All that the engine does is of this kind (`Advance.course`). It takes no job from the queue itself.
-/

namespace EcmaModules

/-! ## Logs -/

/-- Something that is done with promises and jobs. -/
inductive Deed where
  /-- A promise is made, pending or with an outcome. -/
  | make (p : PromiseId) (outcome : Option Completion)
  | register (p : PromiseId) (r : Reaction)
  | settle (p : PromiseId) (c : Completion)
  /-- The host takes the oldest job, in order to run it. -/
  | run (j : Job)

namespace Deed

/-- The promise that something is done with. -/
def promise? : Deed → Option PromiseId
  | .make p _ | .register p _ | .settle p _ => some p
  | .run _ => none

/-- The outcome that is given to the promise. -/
def outcome? (p : PromiseId) : Deed → Option Completion
  | .make q outcome => if q = p then outcome else none
  | .settle q c => if q = p then some c else none
  | _ => none

/-- The reaction to the promise that is registered. -/
def registered? (p : PromiseId) : Deed → Option Reaction
  | .register q r => if q = p then some r else none
  | _ => none

/-- The job that is taken. -/
def ran? : Deed → Option Job
  | .run j => some j
  | _ => none

end Deed

/-- What was done, the first first, with what was put into the queue each time. -/
abbrev Log := List (Deed × List Job)

namespace Log

/-- The first outcome that was given to the promise. -/
def outcome? (L : Log) (p : PromiseId) : Option Completion := L.findSome? (·.1.outcome? p)

/-- The reactions to the promise that were registered. -/
def registered (L : Log) (p : PromiseId) : List Reaction := L.filterMap (·.1.registered? p)

/-- The jobs that were put into the queue for the promise. -/
def handed (L : Log) (p : PromiseId) : List Job :=
  L.flatMap fun e ↦ if e.1.promise? = some p then e.2 else []

/-- The jobs that were taken from the queue. -/
def ran (L : Log) : List Job := L.filterMap (·.1.ran?)

/-- What the promise is, by the log. -/
def state (L : Log) (p : PromiseId) : Promise :=
  match L.outcome? p with
  | some c => Store.settledState c
  | none => .pending (L.registered p)

/-- The jobs for the promise that belong into the queue, by the log. -/
def due (L : Log) (p : PromiseId) : List Job :=
  match L.outcome? p with
  | some c => (L.registered p).map fun r ↦ ⟨r, c⟩
  | none => []

variable {L : Log} {p q : PromiseId} {d : Deed} {js : List Job}

@[simp] theorem outcome?_snoc :
    outcome? (L ++ [(d, js)]) p = (L.outcome? p).or (d.outcome? p) := by
  simp [outcome?, List.findSome?_append]

@[simp] theorem registered_snoc :
    registered (L ++ [(d, js)]) p = L.registered p ++ (d.registered? p).toList := by
  rw [registered, List.filterMap_append]
  cases h : d.registered? p <;> simp [registered, h]

@[simp] theorem handed_snoc :
    handed (L ++ [(d, js)]) p = L.handed p ++ if d.promise? = some p then js else [] := by
  simp [handed]

@[simp] theorem ran_append (L L' : Log) : ran (L ++ L') = L.ran ++ L'.ran :=
  List.filterMap_append

/-- What is done with one promise is nothing to another one. -/
theorem snoc_of_ne (L : Log) (js : List Job) (h : d.promise? ≠ some p) :
    outcome? (L ++ [(d, js)]) p = L.outcome? p ∧
      registered (L ++ [(d, js)]) p = L.registered p ∧
      handed (L ++ [(d, js)]) p = L.handed p := by
  have hnone : d.outcome? p = none ∧ d.registered? p = none := by
    cases d <;> simp_all [Deed.promise?, Deed.outcome?, Deed.registered?]
  simp [h, hnone.1, hnone.2]


end Log

/-! ## Courses -/

namespace Store

/-- What was put at the end of the queue. -/
def queued (s s' : Store) : List Job := s'.jobs.drop s.jobs.length

/-- The store has become another one, while the log was written. -/
inductive Course (s₀ : Store) : Log → Store → Prop where
  | start : Course s₀ [] s₀
  /-- Something else is done. -/
  | aside {L : Log} {s s' : Store} : Course s₀ L s → s'.promises = s.promises → s'.jobs = s.jobs →
      s'.keepsJobs = s.keepsJobs → Course s₀ L s'
  | make {L : Log} {s : Store} : Course s₀ L s →
      Course s₀ (L ++ [(.make s.newPromise.1 none, s.queued s.newPromise.2)]) s.newPromise.2
  | makeSettled {L : Log} {s : Store} (c : Completion) : Course s₀ L s →
      Course s₀ (L ++ [(.make (s.settledPromise c).1 (some c), s.queued (s.settledPromise c).2)])
        (s.settledPromise c).2
  | register {L : Log} {s : Store} {p : PromiseId} (r : Reaction) : Course s₀ L s →
      (s.promise? p).isSome → Course s₀ (L ++ [(.register p r, s.queued (s.react p r))]) (s.react p r)
  | settle {L : Log} {s : Store} {p : PromiseId} (c : Completion) : Course s₀ L s →
      (s.promise? p).isSome → Course s₀ (L ++ [(.settle p c, s.queued (s.settle p c))]) (s.settle p c)
  | run {L : Log} {s : Store} {j : Job} {rest : List Job} : Course s₀ L s → s.jobs = j :: rest →
      Course s₀ (L ++ [(.run j, [])]) { s with jobs := rest }

variable {s s' s'' : Store} {L L' : Log} {p q : PromiseId}

theorem queued_eq {js : List Job} (h : s'.jobs = s.jobs ++ js) : s.queued s' = js := by
  rw [queued, h, List.drop_left]

theorem queued_of_jobs_eq (h : s'.jobs = s.jobs) : s.queued s' = [] :=
  queued_eq (h.trans (List.append_nil _).symm)

/-- A promise that is there is pending or has an outcome. -/
theorem pending_or_settled (h : (s.promise? p).isSome) :
    (∃ rs, s.promise? p = some (.pending rs)) ∨ ∃ c, s.promise? p = some (settledState c) := by
  obtain ⟨P, hP⟩ := Option.isSome_iff_exists.1 h
  cases P with
  | pending rs => exact .inl ⟨rs, hP⟩
  | fulfilled => exact .inr ⟨.ok (), hP⟩
  | rejected e => exact .inr ⟨.error e, hP⟩

theorem react_pending {rs : List Reaction} (h : s.promise? p = some (.pending rs)) (r : Reaction) :
    s.react p r = { s with promises := s.promises.set! p.index (.pending (rs ++ [r])) } := by
  unfold react
  rw [h]

theorem react_settled {c : Completion} (h : s.promise? p = some (settledState c)) (r : Reaction) :
    s.react p r = s.enqueue [⟨r, c⟩] := by
  unfold react
  rw [h]
  rcases c with e | ⟨⟩ <;> rfl

theorem settle_settled {c : Completion} (h : s.promise? p = some (settledState c))
    (c' : Completion) : s.settle p c' = s :=
  settle_of_not_pending c' fun rs hrs ↦
    settledState_ne_pending c rs (Option.some.inj (h.symm.trans hrs))

namespace Course

theorem trans (h : Course s L s') (h' : Course s' L' s'') : Course s (L ++ L') s'' := by
  induction h' with
  | start => rwa [List.append_nil]
  | aside _ hp hj hk ih => exact ih.aside hp hj hk
  | make _ ih => rw [← List.append_assoc]; exact ih.make
  | makeSettled c _ ih => rw [← List.append_assoc]; exact ih.makeSettled c
  | register r _ hp ih => rw [← List.append_assoc]; exact ih.register r hp
  | settle c _ hp ih => rw [← List.append_assoc]; exact ih.settle c hp
  | run _ hj ih => rw [← List.append_assoc]; exact ih.run hj

end Course

end Store

/-! ## What the log has -/

namespace Log

variable {L : Log} {p q : PromiseId} {js : List Job}

/-- What the log has is what is the case. -/
structure Tells (L : Log) (s : Store) : Prop where
  keeps : s.keepsJobs = true
  /-- Nothing was done with promises that are not there. -/
  absent : ∀ p, s.promise? p = none → ∀ e ∈ L, e.1.promise? ≠ some p
  state : ∀ p P, s.promise? p = some P → P = L.state p
  handed : ∀ p, L.handed p = L.due p
  queue : L.flatMap (·.2) = L.ran ++ s.jobs

namespace Tells

variable {s s' : Store} {c : Completion} {r : Reaction}

theorem outcome?_of_pending {rs : List Reaction} (h : L.Tells s)
    (hp : s.promise? p = some (.pending rs)) :
    L.outcome? p = none ∧ L.registered p = rs := by
  have hstate := h.state p _ hp
  unfold Log.state at hstate
  split at hstate
  · exact absurd hstate.symm (Store.settledState_ne_pending _ _)
  · next hnone => exact ⟨hnone, (Promise.pending.inj hstate).symm⟩

theorem outcome?_of_settled (h : L.Tells s) (hp : s.promise? p = some (Store.settledState c)) :
    L.outcome? p = some c := by
  have hstate := h.state p _ hp
  unfold Log.state at hstate
  split at hstate
  · next c' hsome => rw [hsome, Store.settledState_inj hstate]
  · exact absurd hstate (Store.settledState_ne_pending _ _)

/-- With a promise that is not there nothing has been done. -/
theorem nothing (h : L.Tells s) (hp : s.promise? p = none) :
    L.outcome? p = none ∧ L.registered p = [] := by
  have habsent := h.absent p hp
  constructor
  · refine List.findSome?_eq_none_iff.2 fun e he ↦ ?_
    have := habsent e he
    obtain ⟨d, js⟩ := e
    cases d <;> simp_all [Deed.promise?, Deed.outcome?]
  · refine List.filterMap_eq_nil_iff.2 fun e he ↦ ?_
    have := habsent e he
    obtain ⟨d, js⟩ := e
    cases d <;> simp_all [Deed.promise?, Deed.registered?]

/-- Something is done with a promise. -/
theorem snoc (h : L.Tells s) {d : Deed} (hd : d.promise? = some q) (hk : s'.keepsJobs = s.keepsJobs)
    (hpromise : ∀ p, p ≠ q → s'.promise? p = s.promise? p) (hjobs : s'.jobs = s.jobs ++ js)
    (hstate : s'.promise? q = some (Log.state (L ++ [(d, js)]) q))
    (hhanded : L.due q ++ js = due (L ++ [(d, js)]) q) :
    Tells (L ++ [(d, js)]) s' where
  keeps := hk.trans h.keeps
  absent p hp e he := by
    have hpq : p ≠ q := by
      rintro rfl
      exact nomatch hstate.symm.trans hp
    rcases List.mem_append.1 he with he | he
    · exact h.absent p (hpromise p hpq ▸ hp) e he
    · obtain rfl := List.mem_singleton.1 he
      rw [hd]
      exact fun heq ↦ hpq (Option.some.inj heq).symm
  state p P hP := by
    by_cases hpq : p = q
    · subst hpq
      exact Option.some.inj (hP.symm.trans hstate)
    · obtain ⟨houtcome, hregistered, -⟩ := snoc_of_ne L js (p := p) (d := d)
        fun heq ↦ hpq (Option.some.inj (heq.symm.trans hd))
      rw [h.state p P (hpromise p hpq ▸ hP)]
      unfold Log.state
      rw [houtcome, hregistered]
  handed p := by
    by_cases hpq : p = q
    · subst hpq
      rw [handed_snoc, if_pos hd, h.handed, hhanded]
    · obtain ⟨houtcome, hregistered, hhanded⟩ := snoc_of_ne L js (p := p) (d := d)
        fun heq ↦ hpq (Option.some.inj (heq.symm.trans hd))
      rw [hhanded, h.handed]
      unfold due
      rw [houtcome, hregistered]
  queue := by
    have hran : d.ran? = none := by cases d <;> first | rfl | exact nomatch hd
    have hnone : ran [(d, js)] = [] := by simp [ran, hran]
    rw [ran_append, hnone, List.append_nil, List.flatMap_append, h.queue, hjobs, List.append_assoc]
    simp

/-- A promise is made. -/
theorem make (h : L.Tells s) (outcome : Option Completion) {P : Promise}
    (hP : P = outcome.elim (.pending []) Store.settledState) :
    Tells (L ++ [(.make (s.addPromise P).1 outcome, [])]) (s.addPromise P).2 := by
  subst hP
  obtain ⟨hnone, hnil⟩ := h.nothing (s.promise?_addPromise_fst _)
  refine h.snoc rfl rfl (fun p hp ↦ ?_) (List.append_nil _).symm ?_ ?_
  · rw [Store.promise?_addPromise, if_neg]
    exact fun heq ↦ hp (congrArg PromiseId.mk heq)
  · rw [Store.promise?_addPromise_self, Log.state, outcome?_snoc, registered_snoc, hnone, hnil]
    cases outcome <;> simp [Deed.outcome?, Deed.registered?]
  · rw [due, due, outcome?_snoc, registered_snoc, hnone, hnil]
    cases outcome <;> simp [Deed.outcome?, Deed.registered?]

/-- A reaction is registered. One that comes late goes into the queue, behind all who came before. -/
theorem register (h : L.Tells s) (hp : (s.promise? p).isSome) (r : Reaction) :
    Tells (L ++ [(.register p r, s.queued (s.react p r))]) (s.react p r) := by
  rcases Store.pending_or_settled hp with ⟨rs, hp⟩ | ⟨c, hp⟩
  · obtain ⟨hnone, hregistered⟩ := h.outcome?_of_pending hp
    have hjobs : (s.react p r).jobs = s.jobs := by rw [Store.react_pending hp]
    rw [Store.queued_of_jobs_eq hjobs, Store.react_pending hp]
    refine h.snoc rfl rfl (fun q hq ↦ ?_) (List.append_nil _).symm ?_ ?_
    · rw [Store.promise?_set, if_neg fun hand ↦ hq hand.1]
    · rw [Store.promise?_set, hp, Log.state, outcome?_snoc, registered_snoc, hnone, hregistered]
      simp [Deed.outcome?, Deed.registered?]
    · rw [due, due, outcome?_snoc, registered_snoc, hnone]
      simp [Deed.outcome?]
  · have hsome := h.outcome?_of_settled hp
    have hjobs : (s.enqueue [⟨r, c⟩]).jobs = s.jobs ++ [⟨r, c⟩] := by
      rw [Store.jobs_enqueue, if_pos h.keeps]
    rw [Store.react_settled hp, Store.queued_eq hjobs]
    refine h.snoc rfl (s.keepsJobs_enqueue _) (fun q _ ↦ s.promise?_enqueue _ q) hjobs ?_ ?_
    · rw [Store.promise?_enqueue, hp, Log.state, outcome?_snoc, hsome]
      rfl
    · rw [due, due, outcome?_snoc, registered_snoc, hsome]
      simp [Deed.registered?]

/-- A promise is settled, if it has not been. All who have come go into the queue. -/
theorem settle (h : L.Tells s) (hp : (s.promise? p).isSome) (c : Completion) :
    Tells (L ++ [(.settle p c, s.queued (s.settle p c))]) (s.settle p c) := by
  rcases Store.pending_or_settled hp with ⟨rs, hp⟩ | ⟨c', hp⟩
  · obtain ⟨hnone, hregistered⟩ := h.outcome?_of_pending hp
    have hjobs : (s.settle p c).jobs = s.jobs ++ rs.map fun r ↦ ⟨r, c⟩ := by
      rw [Store.settle_pending c hp, Store.jobs_enqueue]
      exact if_pos h.keeps
    rw [Store.queued_eq hjobs]
    refine h.snoc rfl ?_ (fun q hq ↦ ?_) hjobs ?_ ?_
    · rw [Store.settle_pending c hp, Store.keepsJobs_enqueue]
    · rw [Store.promise?_settle hp, if_neg hq]
    · rw [Store.promise?_settle hp, Log.state, outcome?_snoc, hnone]
      simp [Deed.outcome?]
    · rw [due, due, outcome?_snoc, registered_snoc, hnone, hregistered]
      simp [Deed.outcome?, Deed.registered?]
  · -- the outcome that the promise has came first
    have hsome := h.outcome?_of_settled hp
    rw [Store.settle_settled hp, Store.queued_of_jobs_eq rfl]
    refine h.snoc rfl rfl (fun _ _ ↦ rfl) (List.append_nil _).symm ?_ ?_
    · rw [hp, Log.state, outcome?_snoc, hsome]
      rfl
    · rw [due, due, outcome?_snoc, registered_snoc, hsome]
      simp [Deed.registered?]

/-- The oldest job is taken. -/
theorem run (h : L.Tells s) {j : Job} {rest : List Job} (hj : s.jobs = j :: rest) :
    Tells (L ++ [(.run j, [])]) { s with jobs := rest } := by
  have hothers := fun p ↦ snoc_of_ne L [] (p := p) (d := .run j) nofun
  refine ⟨h.keeps, fun p hp e he ↦ ?_, fun p P hP ↦ ?_, fun p ↦ ?_, ?_⟩
  · rcases List.mem_append.1 he with he | he
    · exact h.absent p hp e he
    · obtain rfl := List.mem_singleton.1 he
      exact nofun
  · rw [h.state p P hP]
    unfold Log.state
    rw [(hothers p).1, (hothers p).2.1]
  · rw [(hothers p).2.2, h.handed]
    unfold due
    rw [(hothers p).1, (hothers p).2.1]
  · have hran : ran [(.run j, [])] = [j] := rfl
    rw [ran_append, hran, List.flatMap_append, h.queue, hj, List.append_assoc]
    simp

/-- Something else is done. -/
theorem aside (h : L.Tells s) (hp : s'.promises = s.promises) (hj : s'.jobs = s.jobs)
    (hk : s'.keepsJobs = s.keepsJobs) : L.Tells s' := by
  have hpromise : ∀ p, s'.promise? p = s.promise? p := fun p ↦ by
    rw [Store.promise?, hp, Store.promise?]
  exact ⟨hk.trans h.keeps, fun p hnone ↦ h.absent p (hpromise p ▸ hnone),
    fun p P hP ↦ h.state p P (hpromise p ▸ hP), h.handed, hj ▸ h.queue⟩

end Tells

end Log

theorem Store.Course.tells {s₀ s : Store} {L : Log} (hpromises : s₀.promises = #[])
    (hjobs : s₀.jobs = []) (hkeeps : s₀.keepsJobs = true) (h : s₀.Course L s) : L.Tells s := by
  induction h with
  | start =>
    refine ⟨hkeeps, nofun, fun p P hP ↦ ?_, fun _ ↦ rfl, hjobs.symm⟩
    simp [Store.promise?, hpromises] at hP
  | aside _ hp hj hk ih => exact ih.aside hp hj hk
  | @make L s _ ih =>
    have hjobs : s.newPromise.2.jobs = s.jobs := rfl
    rw [queued_of_jobs_eq hjobs]
    exact ih.make none rfl
  | @makeSettled L s c _ ih =>
    have hmade : s.settledPromise c = s.addPromise (settledState c) := by
      rcases c with e | ⟨⟩ <;> rfl
    have hjobs : (s.addPromise (settledState c)).2.jobs = s.jobs := rfl
    rw [hmade, queued_of_jobs_eq hjobs]
    exact ih.make (some c) rfl
  | register r _ hp ih => exact ih.register hp r
  | settle c _ hp ih => exact ih.settle hp c
  | run _ hj ih => exact ih.run hj

/-! ## What the engine does -/

namespace Store

/-- The store has become another one, and the host has not run a job. -/
def Handles (s s' : Store) : Prop := ∃ L, s.Course L s' ∧ L.ran = []

variable {s s' s'' : Store}

namespace Handles

theorem refl (s : Store) : s.Handles s := ⟨[], .start, rfl⟩

theorem trans (h : s.Handles s') (h' : s'.Handles s'') : s.Handles s'' := by
  obtain ⟨L, hL, hran⟩ := h
  obtain ⟨L', hL', hran'⟩ := h'
  exact ⟨L ++ L', hL.trans hL', by rw [Log.ran_append, hran, hran', List.append_nil]⟩

theorem same (hp : s'.promises = s.promises) (hj : s'.jobs = s.jobs)
    (hk : s'.keepsJobs = s.keepsJobs) : s.Handles s' :=
  ⟨[], Course.start.aside hp hj hk, rfl⟩

theorem of_duties (h : s'.duties = s.duties) : s.Handles s' := by
  simp only [duties, Prod.mk.injEq] at h
  obtain ⟨hp, hj, -, -, hk⟩ := h
  exact same hp hj hk

theorem newPromise (s : Store) : s.Handles s.newPromise.2 := ⟨_, Course.start.make, rfl⟩

theorem settledPromise (s : Store) (c : Completion) : s.Handles (s.settledPromise c).2 :=
  ⟨_, Course.start.makeSettled c, rfl⟩

/-- With a promise that is not there nothing happens. -/
theorem settle (s : Store) (p : PromiseId) (c : Completion) : s.Handles (s.settle p c) := by
  by_cases hp : (s.promise? p).isSome
  · exact ⟨_, Course.start.settle c hp, rfl⟩
  · rw [settle_of_not_pending c fun rs hrs ↦ hp (by simp [hrs])]
    exact refl s

theorem react (s : Store) (p : PromiseId) (r : Reaction) : s.Handles (s.react p r) := by
  by_cases hp : (s.promise? p).isSome
  · exact ⟨_, Course.start.register r hp, rfl⟩
  · have hnone : s.promise? p = none := by simpa using hp
    have hsame : s.react p r = s := by
      unfold Store.react
      rw [hnone]
    rw [hsame]
    exact refl s

theorem addPromise (s : Store) {P : Promise} (hP : ∀ rs, P = .pending rs → rs = []) :
    s.Handles (s.addPromise P).2 := by
  cases P with
  | pending rs =>
    obtain rfl := hP rs rfl
    exact newPromise s
  | fulfilled => exact settledPromise s (.ok ())
  | rejected e => exact settledPromise s (.error e)

theorem of_settles (h : Settles s s') : s.Handles s' := by
  induction h with
  | same hp hj hk => exact same hp hj hk
  | settle s p c => exact settle s p c
  | react s p _ => exact react s p _
  | addPromise s hP => exact addPromise s hP
  | trans _ _ ih ih' => exact ih.trans ih'

theorem of_aside {K : Store → Store → Prop} (h : Aside K s s') : s.Handles s' := of_settles h.settles

theorem startAsync (s : Store) (m : ModuleId) : s.Handles (s.startAsync m).2 :=
  have hheld : s.Handles (s.modifySource m fun r ↦ { r with asyncState := .pending }) :=
    same rfl rfl rfl
  (hheld.trans (newPromise _)).trans (react _ _ _)

theorem fulfillModule (s : Store) (m : ModuleId) : s.Handles (s.fulfillModule m).1 := by
  unfold Store.fulfillModule
  split
  · exact refl s
  · refine (of_settles (.finishModule s m)).trans (of_duties ?_)
    exact gatherFrom_of_lessen (R := fun s s' ↦ s'.duties = s.duties) (fun _ ↦ rfl)
      (fun _ _ _ h h' ↦ h'.trans h) (fun _ _ ↦ rfl) _ _ m []

theorem continueFree (s : Store) (m : ModuleId) : s.Handles (s.continueFree m).2 := by
  unfold Store.continueFree
  split
  · exact refl s
  · split
    · exact refl s
    · split
      · exact startAsync s m
      · split
        · exact of_settles (.finishSearched s m)
        · exact refl s

theorem finishFree (s : Store) (m : ModuleId) (capability : Option PromiseId) (c : Completion) :
    s.Handles (s.finishFree m capability c) := by
  rcases c with e | ⟨⟩ <;> rcases capability with _ | p
  · exact of_settles (.rejectFrom _ s m e)
  · exact settle s p _
  · rw [finishFree_eq_finishModule]
    exact of_settles (.finishModule s m)
  · exact refl s

end Handles

/-- The step is of that kind, and does not lead to a job. -/
structure Attends (s : Store) (x : Store × Next) : Prop where
  handles : s.Handles x.1
  hand : x.2.hand = []

namespace Attends

variable {x : Store × Next}

theorem of_quiet {K : Store → Store → Prop} (h : Aside K s x.1) (hq : x.2.Quiet) : s.Attends x :=
  ⟨.of_aside h, hq.hand⟩

theorem of_duties (h : x.1.duties = s.duties) (hx : x.2.hand = []) : s.Attends x := ⟨.of_duties h, hx⟩

/-- What comes after a step of a walk. -/
theorem next (h : s.Handles s') (goal : EvaluationGoal) (step : EvaluationStep) :
    s.Attends (step.next s' goal) := by
  cases step with
  | done =>
    refine ⟨h.trans (.of_settles (.finish s' goal)), ?_⟩
    cases goal <;> rfl
  | failed e stack =>
    refine ⟨h.trans (.of_settles (.fail s' stack e goal)), ?_⟩
    cases goal <;> rfl
  | _ => exact ⟨h, rfl⟩

theorem start (h : s.Handles s') (goal : EvaluationGoal) (m : ModuleId) :
    s.Attends ((EvaluationWalk.start s' m).2.next (EvaluationWalk.start s' m).1 goal) :=
  next (h.trans (.of_duties (EvaluationWalk.duties_arrive s' {} m .executing))) goal _

end Attends

theorem Handles.execute (s : Store) (w : EvaluationWalk) (m : ModuleId) :
    s.Handles (EvaluationWalk.execute s w m).1 := by
  unfold EvaluationWalk.execute
  split
  · exact refl s
  · split
    · exact of_duties (EvaluationWalk.duties_concludeExecuted _ w m)
    · split
      · exact startAsync s m
      · exact refl s

theorem Handles.advance (s : Store) (w : EvaluationWalk) : s.Handles (w.advance s).1 := by
  unfold EvaluationWalk.advance
  split
  · exact refl s
  · exact execute s _ _
  · exact of_duties (EvaluationWalk.duties_concludeSearched s _ _)
  · dsimp only
    split
    · exact of_duties (EvaluationWalk.duties_arrive s _ _ _)
    · exact refl s

theorem Handles.executed (s : Store) (w : EvaluationWalk) (m : ModuleId)
    (capability : Option PromiseId) (c : Completion) :
    s.Handles (w.executed s m capability c).1 := by
  unfold EvaluationWalk.executed
  split
  · exact of_duties (EvaluationWalk.duties_concludeExecuted s w m)
  · exact (settle s _ _).trans (of_duties (EvaluationWalk.duties_concludeExecuted _ w m))
  · exact refl s

theorem Handles.passed (s : Store) (w : EvaluationWalk) (c : Completion) :
    s.Handles (w.passed s c).1 := by
  unfold EvaluationWalk.passed
  split <;> exact refl s

theorem evaluate_attends (s : Store) (m : ModuleId) : s.Attends (s.evaluate m) := by
  unfold Store.evaluate
  split
  · exact ⟨.refl s, rfl⟩
  · dsimp only
    split
    · exact ⟨.refl s, rfl⟩
    · exact .start (.of_settles (.newCapability s _)) _ _

theorem forceModule_attends (s : Store) (m : ModuleId) : s.Attends (s.forceModule m) := by
  have hforce := s.duties_force m
  unfold Store.forceModule
  split <;> next heq =>
    rw [heq] at hforce
    first
    | exact ⟨.of_duties hforce, rfl⟩
    | exact .start (.of_duties hforce) _ _

end Store

theorem Job.run_attends (s : Store) (j : Job) : s.Attends (j.run s) := by
  by_cases hj : ∀ m, j.reaction ≠ .completeModule m
  · obtain ⟨ha, hq⟩ := j.run_quiet s hj
    exact .of_quiet ha hq
  · obtain ⟨reaction, c⟩ := j
    obtain ⟨m, rfl⟩ : ∃ m, reaction = .completeModule m := by simpa using hj
    rcases c with e | ⟨⟩
    · exact ⟨.of_settles (.rejectFrom _ s m e), rfl⟩
    · exact ⟨.fulfillModule s m, rfl⟩

theorem LinkStep.next_hand (s : Store) (step : LinkStep) : (step.next s).2.hand = [] := by
  cases step <;> rfl

theorem Task.advance_attends (s : Store) (t : Task) : s.Attends (t.advance s) := by
  cases ht : t.isWalk with
  | false =>
    obtain ⟨ha, hq, -⟩ := t.advance_quiet s ht
    exact .of_quiet ha hq
  | true =>
    cases t with
    | force m => exact s.forceModule_attends m
    | evaluate m => exact s.evaluate_attends m
    | evaluation goal w => exact .next (.advance s w) goal _
    | job j => exact j.run_attends s
    | free ms =>
      rcases ms with _ | ⟨m, rest⟩
      · exact ⟨.refl s, rfl⟩
      · have hfree := Store.Handles.continueFree s m
        simp only [Task.advance]
        split <;> next heq => rw [heq] at hfree; exact ⟨hfree, rfl⟩
    | link m =>
      refine .of_duties (Task.link_duties s m).1 ?_
      simp only [Task.advance]
      split <;> rfl
    | linking w =>
      exact .of_duties ((LinkStep.next_duties _ _).1.trans (w.advance_duties s)) (LinkStep.next_hand _ _)
    | _ => contradiction

theorem Frame.resume_attends (s : Store) (r : Result) (f : Frame) : s.Attends (f.resume s r) := by
  cases hf : f.isWalk with
  | false =>
    obtain ⟨ha, hq, -⟩ := f.resume_quiet s r hf
    exact .of_quiet ha hq
  | true =>
    cases f with
    | executed goal m capability w => exact .next (.executed s w m capability _) goal _
    | passed goal w => exact .next (.passed s w _) goal _
    | freed m capability rest => exact ⟨.finishFree s m capability _, rfl⟩
    | setUp m w =>
      refine .of_duties (Frame.setUp_duties s r m w).1 ?_
      simp only [Frame.resume]
      split
      · rfl
      · exact LinkStep.next_hand _ _
    | _ => contradiction

namespace Machine

theorem not_job_apply {s : Store} {n : Next} (fs : List Frame) (h : n.hand = []) (j : Job) :
    (apply fs (s, n)).control ≠ .run (.job j) := by
  intro hj
  cases n with
  | goto t =>
    obtain rfl : t = .job j := Control.run.inj hj
    exact nomatch h
  | call t f =>
    obtain rfl : t = .job j := Control.run.inj hj
    exact nomatch h
  | give r => exact nomatch hj

/-- A step of the machine does not lead to a job. -/
theorem step_attends (M : Machine) :
    M.store.Handles M.step.store ∧ ∀ j, M.step.control ≠ .run (.job j) := by
  rcases hnext : M.next? with _ | ⟨s', n⟩
  · rw [step_of_next?_eq_none hnext]
    refine ⟨.refl _, fun j hj ↦ ?_⟩
    obtain ⟨s, control, fs⟩ := M
    obtain rfl : control = .run (.job j) := hj
    exact nomatch hnext
  · have hattends : M.store.Attends (s', n) := by
      obtain ⟨s, control, fs⟩ := M
      cases control with
      | run t =>
        rw [advance_of_next? hnext]
        exact t.advance_attends s
      | give r =>
        cases fs with
        | nil => exact nomatch hnext
        | cons f fs =>
          have hresume : f.resume s r = (s', n) := Option.some.inj hnext
          rw [← hresume]
          exact f.resume_attends s r
    rw [step_of_next? hnext, store_apply]
    exact ⟨hattends.handles, not_job_apply M.rest hattends.hand⟩

end Machine

namespace State

/-- A job is about to be run. -/
def RunsJob (st : State) (j : Job) : Prop := ∃ a M, st = .busy a M ∧ M.control = .run (.job j)

/-- The second state comes of the first one, while a log is written. Either the host has taken the oldest
job from the queue, which is about to be run then, or no job was taken and none is run. -/
def Follows (st st' : State) : Prop :=
  ∃ L, st.store.Course L st'.store ∧
    (L.ran = [] ∧ (∀ j, ¬st'.RunsJob j) ∨
      ∃ s j rest, st = .idle s ∧ s.jobs = j :: rest ∧ L.ran = [j] ∧
        st' = .busy .job (.start { s with jobs := rest } (.job j)))

theorem Follows.of_handles {st st' : State} (h : st.store.Handles st'.store)
    (hst : ∀ j, ¬st'.RunsJob j) : st.Follows st' := by
  obtain ⟨L, hL, hran⟩ := h
  exact ⟨L, hL, .inl ⟨hran, hst⟩⟩

theorem not_runsJob_idle (s : Store) (j : Job) : ¬(State.idle s).RunsJob j := by
  rintro ⟨a, M, h, -⟩
  exact nomatch h

theorem not_runsJob_busy {a : Act} {M : Machine} (h : ∀ j, M.control ≠ .run (.job j)) (j : Job) :
    ¬(State.busy a M).RunsJob j := by
  rintro ⟨_, _, heq, hM⟩
  cases heq
  exact h j hM

end State

/-- Of a state comes the next one. -/
theorem Advance.follows {P : Machine → Machine → Prop} {x y : State × List Event}
    (h : Advance P x y) : x.1.Follows y.1 := by
  cases h with
  | @call s H a st ha =>
    cases a with
    | job =>
      rcases hj : s.jobs with _ | ⟨j, rest⟩
      · simp [Act.begin, hj] at ha
      · simp only [Act.begin, hj, Option.some.injEq] at ha
        subst ha
        exact ⟨_, Store.Course.start.run hj, .inr ⟨s, j, rest, rfl, hj, rfl, rfl⟩⟩
    | namespaceOf m phase =>
      obtain rfl := Option.some.inj ha
      exact .of_handles (.of_duties (s.duties_namespaceOf m phase)) (State.not_runsJob_idle _)
    | settle label c =>
      obtain ⟨p, -, rfl⟩ := Option.map_eq_some_iff.1 ha
      exact .of_handles (.settle s p c) (State.not_runsJob_idle _)
    | _ =>
      obtain rfl := Option.some.inj ha
      exact .of_handles (.refl s) (State.not_runsJob_busy (by rintro j ⟨⟩))
  | @step a M H _ _ =>
    obtain ⟨hhandles, hjob⟩ := M.step_attends
    exact .of_handles hhandles (State.not_runsJob_busy hjob)
  | @consult a M H q s hq hs =>
    refine .of_handles (.of_aside hs.aside) (State.not_runsJob_busy fun j hj ↦ ?_)
    have hcontrol := (Machine.control_of_question? hq).symm.trans hj
    cases hcontrol
  | @answer a M H q as hq =>
    have hcontrol := Machine.control_of_question? hq
    have hanswer : M.answer as = { M with control := .run (.answers as) } := by
      unfold Machine.answer
      rw [hcontrol]
    rw [hanswer]
    exact .of_handles (.refl _) (State.not_runsJob_busy (by rintro j ⟨⟩))
  | finish hr => exact .of_handles (.refl _) (State.not_runsJob_idle _)

/-! ## The result -/

namespace Store

variable {s s' : Store} {p q : PromiseId} {c : Completion}

theorem promise?_settle_of_settled (h : s.promise? p = some (settledState c)) (q : PromiseId)
    (c' : Completion) : (s.settle q c').promise? p = some (settledState c) := by
  by_cases hq : ∃ rs, s.promise? q = some (.pending rs)
  · obtain ⟨rs, hrs⟩ := hq
    have hpq : p ≠ q := by
      rintro rfl
      exact settledState_ne_pending c rs (Option.some.inj (h.symm.trans hrs))
    rw [promise?_settle hrs, if_neg hpq, h]
  · rw [settle_of_not_pending c' (not_exists.1 hq), h]

theorem promise?_react_of_settled (h : s.promise? p = some (settledState c))
    (hq : (s.promise? q).isSome) (r : Reaction) :
    (s.react q r).promise? p = some (settledState c) := by
  rcases pending_or_settled hq with ⟨rs, hrs⟩ | ⟨c', hc'⟩
  · have hpq : p ≠ q := by
      rintro rfl
      exact settledState_ne_pending c rs (Option.some.inj (h.symm.trans hrs))
    rw [react_pending hrs, promise?_set, if_neg fun hand ↦ hpq hand.1, h]
  · rw [react_settled hc', promise?_enqueue, h]

/-- A promise that was settled stays as it is. -/
theorem Course.settled {L : Log} (h : s.Course L s') (hp : s.promise? p = some (settledState c)) :
    s'.promise? p = some (settledState c) := by
  induction h with
  | start => exact hp
  | aside _ hpromises _ _ ih => rwa [promise?, hpromises, ← promise?]
  | make _ ih => exact (promise?_addPromise_of_isSome _ (Option.isSome_of_mem ih)).trans ih
  | makeSettled c' _ ih =>
    rcases c' with e | ⟨⟩ <;>
      exact (promise?_addPromise_of_isSome _ (Option.isSome_of_mem ih)).trans ih
  | register r _ hq ih => exact promise?_react_of_settled ih hq r
  | settle c' _ _ ih => exact promise?_settle_of_settled ih _ c'
  | run _ _ ih => exact ih

theorem enqueue_frame (s : Store) (js : List Job) :
    s.enqueue js = { s with jobs := (s.enqueue js).jobs } := by
  unfold enqueue
  split <;> rfl

theorem settle_frame (s : Store) (p : PromiseId) (c : Completion) :
    s.settle p c = { s with promises := (s.settle p c).promises, jobs := (s.settle p c).jobs } := by
  unfold settle
  split
  · rw [enqueue_frame]
  · rfl

theorem react_frame (s : Store) (p : PromiseId) (r : Reaction) :
    s.react p r = { s with promises := (s.react p r).promises, jobs := (s.react p r).jobs } := by
  unfold react
  split
  · rfl
  · rw [enqueue_frame]
  · rw [enqueue_frame]
  · rfl

end Store

/-- A promise is pending with all reactions that were registered, or has the first outcome that it was
given, and keeps that. If it has one, each of its reactions was put into the queue once, with that outcome
and in the order in which they were registered; otherwise none was. Jobs are taken in the order in which
they were put into the queue, and what is left is in the queue still.

Registering a reaction and settling a promise run nothing: they change promises and the queue only. In the
engine, a job is run in no other way than by being taken from the queue. -/
theorem reactions_run_once_in_order {s₀ s : Store} {L : Log} (hpromises : s₀.promises = #[])
    (hjobs : s₀.jobs = []) (hkeeps : s₀.keepsJobs = true) (h : s₀.Course L s) :
    (∀ p, (s.promise? p).isSome → s.promise? p =
      some (match L.outcome? p with
        | some c => Store.settledState c
        | none => .pending (L.registered p))) ∧
    (∀ p c L' s', s.promise? p = some (Store.settledState c) → s.Course L' s' →
      s'.promise? p = some (Store.settledState c)) ∧
    (∀ p, L.handed p =
      match L.outcome? p with
      | some c => (L.registered p).map fun r ↦ ⟨r, c⟩
      | none => []) ∧
    L.flatMap (·.2) = L.ran ++ s.jobs ∧
    (∀ (t : Store) p r,
      t.react p r = { t with promises := (t.react p r).promises, jobs := (t.react p r).jobs }) ∧
    (∀ (t : Store) p c,
      t.settle p c = { t with promises := (t.settle p c).promises, jobs := (t.settle p c).jobs }) ∧
    ∀ P x y, Advance P x y → x.1.Follows y.1 := by
  have htells := h.tells hpromises hjobs hkeeps
  refine ⟨fun p hp ↦ ?_, fun p c L' s' hp h' ↦ h'.settled hp, htells.handed, htells.queue,
    Store.react_frame, Store.settle_frame, fun P x y hxy ↦ hxy.follows⟩
  obtain ⟨P, hP⟩ := Option.isSome_iff_exists.1 hp
  rw [hP, htells.state p P hP, Log.state]

/-- Two reactions are registered before the promise is settled, and one afterwards. Settling it again does
nothing. -/
theorem reactions_run_once_in_order_late :
    ∃ L s, Store.Course {} L s ∧ L.registered ⟨0⟩ = [.note "a", .note "b", .note "c"] ∧
      s.promise? ⟨0⟩ = some .fulfilled ∧
      L.handed ⟨0⟩ = [⟨.note "a", .ok ()⟩, ⟨.note "b", .ok ()⟩, ⟨.note "c", .ok ()⟩] ∧
      L.ran = [⟨.note "a", .ok ()⟩] ∧
      L.flatMap (·.2) = ⟨.note "a", .ok ()⟩ :: s.jobs := by
  have hmade : Store.Course {} _ _ := Store.Course.start.make
  have hpending := (hmade.register (p := ⟨0⟩) (.note "a") rfl).register (p := ⟨0⟩) (.note "b") rfl
  have hsettled := (hpending.settle (p := ⟨0⟩) (.ok ()) rfl).settle (p := ⟨0⟩) (.error ⟨0⟩) rfl
  have hlate := (hsettled.register (p := ⟨0⟩) (.note "c") rfl).run rfl
  obtain ⟨hstate, -, hhanded, hqueue, -⟩ := reactions_run_once_in_order rfl rfl rfl hlate
  exact ⟨_, _, hlate, rfl, hstate ⟨0⟩ rfl, hhanded ⟨0⟩, rfl, hqueue⟩

end EcmaModules
