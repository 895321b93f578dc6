import EcmaModules.Proofs.Errand
import EcmaModules.Proofs.Halting

/-!
# The order of answers does not matter

A graph is loaded by a host that has a fixed answer to each request of each module. It may give the
answers at once, in a job, or later, in any order, also some in one way and some in another. Once it
has given them all, the outcome is that of the graph: loading has succeeded just when the host has a
module for each request of each module that can be reached, and then it was asked for each of these
requests once.

An answer that is given at once is taken in the middle of a walk, and the walk from the module given
goes on top of it. That is why the books are kept for all walks of the machine together
(`Machine.loadWalks`). A failure in the middle of such a walk ends the walks below it as well.
-/

namespace EcmaModules

/-! ## Schedules -/

/-- The host is asked for a module. -/
def Next.exchanges (n : Next) : List Exchange :=
  match n.question? with
  | some (.load wanted) => [.asked wanted]
  | _ => []

/-- The answer that is taken in the next step. -/
def Machine.takes (M : Machine) : List Exchange :=
  match M.control with
  | .run (.answers (a :: _)) => [.answered a]
  | _ => []

/-- What passes between loading and the host in the next step. -/
def Machine.exchanges (M : Machine) : List Exchange :=
  match M.next? with
  | some (_, n) => n.exchanges ++ M.takes
  | none => []

/-- The states and histories of a run in which one module is loaded, and the host answers what it is
asked for by a fixed function. When an answer is taken, its request is one that is waited for. -/
inductive Schedule (R : Catalog) (s₀ : Store) (root : ModuleId) (hostDefined : Option String) :
    State → List Exchange → Prop where
  | start : Schedule R s₀ root hostDefined
      (.busy (.load root hostDefined) (.start s₀ (.load root hostDefined))) []
  | step {a : Act} {M : Machine} {H : List Exchange} :
      Schedule R s₀ root hostDefined (.busy a M) H →
      (∀ x rest, M.control = .run (.answers (x :: rest)) → M.store.Heeds R x) →
      Schedule R s₀ root hostDefined (.busy a M.step) (M.exchanges ++ H)
  | consult {a : Act} {M : Machine} {H : List Exchange} {q : HostQuestion} {s : Store} :
      Schedule R s₀ root hostDefined (.busy a M) H → M.question? = some q → Consults M.store s →
      Schedule R s₀ root hostDefined (.busy a { M with store := s }) H
  /-- The host gives answers at once, or none. -/
  | answer {a : Act} {M : Machine} {H : List Exchange} {q : HostQuestion} (as : List LoadAnswer) :
      Schedule R s₀ root hostDefined (.busy a M) H → M.question? = some q →
      Schedule R s₀ root hostDefined (.busy a (M.answer as)) H
  | finish {a : Act} {M : Machine} {H : List Exchange} {r : Result} :
      Schedule R s₀ root hostDefined (.busy a M) H → M.result? = some r →
      Schedule R s₀ root hostDefined (.idle M.store) (.returned r :: H)
  /-- The host gives an answer that it had put off. -/
  | give {s : Store} {H : List Exchange} (x : LoadAnswer) :
      Schedule R s₀ root hostDefined (.idle s) H →
      Schedule R s₀ root hostDefined (.busy (.answer x) (.start s (.answers [x]))) H
  | job {s : Store} {H : List Exchange} {st : State} :
      Schedule R s₀ root hostDefined (.idle s) H → Act.job.begin s = some st →
      Schedule R s₀ root hostDefined st H

/-! ## Jobs -/

namespace Store

variable {s s' : Store} {l : LoadingId}

/-- No one waits for a promise, and in all jobs the host is asked for an answer. -/
structure Unwatched (s : Store) : Prop where
  reactions : ∀ p, s.reactions p = []
  jobs : ∀ j ∈ s.jobs, j.answersLoad = true

theorem Unwatched.of_eq (h : s.Unwatched) (hp : s'.promises = s.promises) (hj : s'.jobs ⊆ s.jobs) :
    s'.Unwatched :=
  ⟨fun p ↦ (reactions_eq (by rw [promise?, hp, promise?])).trans (h.reactions p),
    fun j hmem ↦ h.jobs j (hj hmem)⟩

theorem Unwatched.settle (h : s.Unwatched) (p : PromiseId) (c : Completion) :
    (s.settle p c).Unwatched := by
  by_cases hp : ∃ rs, s.promise? p = some (.pending rs)
  · obtain ⟨rs, hp⟩ := hp
    obtain rfl : rs = [] := by simpa [Store.reactions, hp] using h.reactions p
    refine ⟨fun q ↦ ?_, fun j hj ↦ ?_⟩
    · have hq := h.reactions q
      unfold Store.reactions at hq ⊢
      rw [promise?_settle hp]
      by_cases heq : q = p
      · rw [if_pos heq]
        rcases c with e | ⟨⟩ <;> rfl
      · rwa [if_neg heq]
    · rw [settle_pending c hp, jobs_enqueue, List.map_nil, List.append_nil, ite_self] at hj
      exact h.jobs j hj
  · rw [settle_of_not_pending c (not_exists.1 hp)]
    exact h

theorem Unwatched.works (h : s.Unwatched) (hw : s.Works l s') : s'.Unwatched := by
  cases hw with
  | alter halter _ => exact h.of_eq halter.promises (halter.jobs ▸ List.Subset.refl _)
  | conclude c _ _ halter _ =>
    exact (h.of_eq halter.promises (halter.jobs ▸ List.Subset.refl _)).settle _ c

theorem Unwatched.addPromise (h : s.Unwatched) {P : Promise}
    (hP : ∀ rs, P = .pending rs → rs = []) : (s.addPromise P).2.Unwatched := by
  refine ⟨fun q ↦ ?_, h.jobs⟩
  have hq := h.reactions q
  unfold Store.reactions at hq ⊢
  rw [promise?_addPromise]
  split
  · next rs heq =>
    split at heq
    · exact hP rs (Option.some.inj heq)
    · simpa [heq] using hq
  · rfl

theorem Unwatched.consult (h : s.Unwatched) (hs : Consults s s') : s'.Unwatched := by
  cases hs with
  | throw kind message => exact h.of_eq rfl (List.Subset.refl _)
  | print line => exact h.of_eq rfl (List.Subset.refl _)
  | putOff call =>
    have hsettled := h.addPromise (P := .fulfilled) fun _ hP ↦ by cases hP
    have hdefer : s.defer (.answerLoad call) =
        (s.addPromise .fulfilled).2.enqueue [⟨.answerLoad call, .ok ()⟩] := by
      simp only [defer, react, settledPromise, promise?_addPromise_self]
    rw [hdefer]
    refine ⟨fun q ↦ ?_, fun j hj ↦ ?_⟩
    · rw [reactions_eq (promise?_enqueue _ _ q)]
      exact hsettled.reactions q
    · rw [jobs_enqueue] at hj
      split at hj
      · rcases List.mem_append.1 hj with hj | hj
        · exact hsettled.jobs j hj
        · rw [List.mem_singleton.1 hj]
          rfl
      · exact hsettled.jobs j hj

theorem Unread.unwatched (h : s.Unread) : s.Unwatched := by
  refine ⟨fun p ↦ ?_, fun j hj ↦ ?_⟩
  · simp [Store.reactions, promise?, h.promises]
  · rw [h.jobs] at hj
    exact absurd hj List.not_mem_nil

end Store

/-! ## The machine -/

/-- The task is part of loading, or a job in which the host is asked for an answer. -/
def Task.onErrand : Task → Bool
  | .loading _ | .ask _ | .answers _ => true
  | .job j => j.answersLoad
  | _ => false

/-- The machine does nothing but to go on with the one operation there is. -/
structure Machine.OnErrand (M : Machine) (R : Catalog) (s₀ : Store) (root : ModuleId)
    (H : List Exchange) (p : PromiseId) : Prop where
  store : M.store.OnErrand R s₀ root M.loadWalks H p
  unwatched : M.store.Unwatched
  current : ∀ t, M.control = .run t → t.onErrand = true
  frames : ∀ f ∈ M.frames, f.isLoad = true
  returns : .returned (.promise p) ∈ H ∨ M.frames.getLast? = some (.loadPromise p) ∨
    M.frames = [] ∧ M.control = .give (.promise p)

/-- What there is to be done, between two calls or in one, is to go on with the operation. -/
def State.OnErrand (R : Catalog) (s₀ : Store) (root : ModuleId) (H : List Exchange)
    (p : PromiseId) : State → Prop
  | .idle s => s.OnErrand R s₀ root [] H p ∧ s.Unwatched ∧ .returned (.promise p) ∈ H
  | .busy _ M => M.OnErrand R s₀ root H p

section

variable {R : Catalog} {s₀ : Store} {root : ModuleId} {H : List Exchange} {p : PromiseId}

theorem LoadStep.exchanges_next (s : Store) (step : LoadStep) :
    (step.next s).1 = s ∧ (step.next s).2.exchanges = step.exchanges ∧
      (step.next s).2.loadWalks = step.walks := by
  cases step <;> exact ⟨rfl, rfl, rfl⟩

/-- The promise of the operation is handed on to the caller. -/
def Next.Returns (n : Next) (fs : List Frame) (p : PromiseId) : Prop :=
  (∃ t, n = .call t (.loadPromise p)) ∧ fs = [] ∨ fs.getLast? = some (.loadPromise p) ∨
    fs = [] ∧ n = .give (.promise p)

/-- What comes next is part of the operation. -/
structure Next.OnErrand (n : Next) : Prop where
  goto : ∀ t, n = .goto t → t.onErrand = true
  call : ∀ t f, n = .call t f → t.onErrand = true ∧ f.isLoad = true

theorem Next.OnErrand.of_goto {t : Task} (h : t.onErrand = true) : (Next.goto t).OnErrand := by
  refine ⟨fun t' heq ↦ ?_, fun t' f heq ↦ ?_⟩
  · cases heq
    exact h
  · contradiction

theorem Next.OnErrand.of_call {t : Task} {f : Frame} (ht : t.onErrand = true)
    (hf : f.isLoad = true) : (Next.call t f).OnErrand := by
  refine ⟨fun t' heq ↦ ?_, fun t' f' heq ↦ ?_⟩
  · contradiction
  · cases heq
    exact ⟨ht, hf⟩

theorem Next.OnErrand.of_give (r : Result) : (Next.give r).OnErrand := by
  refine ⟨fun t heq ↦ ?_, fun t f heq ↦ ?_⟩ <;> contradiction

theorem LoadStep.next_onErrand (s : Store) (step : LoadStep) : (step.next s).2.OnErrand := by
  cases step with
  | done => exact .of_give _
  | go w => exact .of_goto rfl
  | ask wanted w => exact .of_call rfl rfl

/-- A step after which what comes next, and the frames below it, are part of the operation. -/
theorem Machine.OnErrand.of_next? {M : Machine} {x : Store × Next} (hx : M.next? = some x)
    (hstore : x.1.OnErrand R s₀ root (x.2.loadWalks ++ M.rest.flatMap Frame.loadWalks)
      (x.2.exchanges ++ M.takes ++ H) p)
    (hunwatched : x.1.Unwatched) (hn : x.2.OnErrand) (hfs : ∀ f ∈ M.rest, f.isLoad = true)
    (hr : .returned (.promise p) ∈ H ∨ x.2.Returns M.rest p) :
    M.step.OnErrand R s₀ root (M.exchanges ++ H) p := by
  have hwalks := Machine.loadWalks_apply M.rest x
  have hpasses : M.exchanges = x.2.exchanges ++ M.takes := by simp only [exchanges, hx]
  rw [step_of_next? hx, hpasses]
  replace hr := hr.imp_left (List.mem_append_right (x.2.exchanges ++ M.takes))
  obtain ⟨s, n⟩ := x
  cases n with
  | goto t =>
    refine ⟨hwalks ▸ hstore, hunwatched, fun t' heq ↦ ?_, hfs, hr.imp_right fun hr ↦ ?_⟩
    · cases heq
      exact hn.goto t rfl
    · rcases hr with ⟨⟨t', heq⟩, -⟩ | hr | ⟨-, heq⟩
      · contradiction
      · exact .inl hr
      · contradiction
  | call t f =>
    obtain ⟨ht, hf⟩ := hn.call t f rfl
    refine ⟨hwalks ▸ hstore, hunwatched, fun t' heq ↦ ?_, List.forall_mem_cons.2 ⟨hf, hfs⟩,
      hr.imp_right fun hr ↦ .inl ?_⟩
    · cases heq
      exact ht
    · change (f :: M.rest).getLast? = _
      rcases hr with ⟨⟨t', heq⟩, hnil⟩ | hr | ⟨-, heq⟩
      · cases heq
        rw [hnil]
        rfl
      · rw [List.getLast?_cons, hr]
        rfl
      · contradiction
  | give r =>
    refine ⟨hwalks ▸ hstore, hunwatched, fun t' heq ↦ ?_, hfs, hr.imp_right fun hr ↦ ?_⟩
    · contradiction
    · rcases hr with ⟨⟨t', heq⟩, -⟩ | hr | ⟨hnil, heq⟩
      · contradiction
      · exact .inl hr
      · cases heq
        exact .inr ⟨hnil, rfl⟩

/-- A step of the operation. -/
theorem Machine.OnErrand.step {M : Machine} (hs : s₀.Unread)
    (hR : ∀ m q d, R m q = some d → (s₀.module? d).isSome) (h : M.OnErrand R s₀ root H p)
    (hc : M.store.Charts M.loadWalks [])
    (ha : ∀ x rest, M.control = .run (.answers (x :: rest)) → M.store.Heeds R x) :
    M.step.OnErrand R s₀ root (M.exchanges ++ H) p := by
  obtain ⟨s, control, fs⟩ := M
  obtain ⟨hstore, hunwatched, hcurrent, hframes, hreturns⟩ := h
  rcases control with t | r
  · have hstays := hreturns
    replace hreturns : ∀ n : Next, .returned (.promise p) ∈ H ∨ n.Returns fs p := fun n ↦ by
      rcases hreturns with hr | hr | ⟨-, heq⟩
      · exact .inl hr
      · exact .inr (.inr (.inl hr))
      · contradiction
    replace hcurrent := hcurrent t rfl
    cases t with
    | loading w =>
      have hadvance := Store.OnErrand.advance (w := w) hs hstore hc
      obtain ⟨hnext, hexchanges, hwalks⟩ := LoadStep.exchanges_next (w.advance s).1 (w.advance s).2
      rw [← hnext, ← hexchanges, ← hwalks] at hadvance
      refine .of_next? (x := (w.advance s).2.next (w.advance s).1) rfl ?_ ?_
        (LoadStep.next_onErrand _ _) hframes (hreturns _)
      · rwa [takes, List.append_nil]
      · rw [hnext]
        exact hunwatched.works (w.advance_works s)
    | ask q =>
      exact ⟨hstore, hunwatched, fun _ heq ↦ Control.run.inj heq ▸ hcurrent, hframes, hstays⟩
    | answers as =>
      rcases as with _ | ⟨a, rest⟩
      · exact .of_next? (x := (s, .give .done)) rfl hstore hunwatched (.of_give _) hframes
          (hreturns _)
      · have hanswer := Store.OnErrand.answer hs hstore hc (ha a rest rfl) hR
        have hworks := s.takeAnswer_works a
        rcases htaken : s.takeAnswer a with ⟨s', _ | w⟩ <;> rw [htaken] at hanswer hworks
        · refine .of_next? (x := (s', .goto (.answers rest))) ?_ hanswer (hunwatched.works hworks)
            (.of_goto rfl) hframes (hreturns _)
          simp only [next?, Task.advance, htaken]
        · refine .of_next? (x := (s', .call (.loading w) (.moreAnswers rest))) ?_ hanswer
            (hunwatched.works hworks) (.of_call rfl rfl) hframes (hreturns _)
          simp only [next?, Task.advance, htaken]
    | job j =>
      obtain ⟨reaction, c⟩ := j
      cases reaction with
      | answerLoad wanted =>
        exact .of_next? (x := (s, .goto (.ask (.answer wanted)))) rfl hstore hunwatched
          (.of_goto rfl) hframes (hreturns _)
      | _ => contradiction
    | _ => contradiction
  · rcases fs with _ | ⟨f, fs⟩
    · exact ⟨hstore, hunwatched, hcurrent, hframes, hreturns⟩
    · obtain ⟨hf, hbelow⟩ := List.forall_mem_cons.1 hframes
      -- the promise is handed on when its frame is the last one
      replace hreturns : .returned (.promise p) ∈ H ∨ fs = [] ∧ f = .loadPromise p ∨
          fs.getLast? = some (.loadPromise p) := by
        rcases hreturns with hr | hr | ⟨heq, -⟩
        · exact .inl hr
        · rcases fs with _ | ⟨g, gs⟩
          · exact .inr (.inl ⟨rfl, Option.some.inj hr⟩)
          · exact .inr (.inr (List.getLast?_cons_cons.symm.trans hr))
        · contradiction
      cases f with
      | loadPromise p' =>
        refine .of_next? (x := (s, .give (.promise p'))) rfl hstore hunwatched (.of_give _) hbelow
          (hreturns.imp_right fun hr ↦ ?_)
        rcases hr with ⟨rfl, heq⟩ | hr
        · cases heq
          exact .inr (.inr ⟨rfl, rfl⟩)
        · exact .inr (.inl hr)
      | asked w =>
        refine .of_next? (x := (s, .goto (.loading w))) rfl hstore hunwatched (.of_goto rfl) hbelow
          (hreturns.imp_right fun hr ↦ ?_)
        rcases hr with ⟨-, heq⟩ | hr
        · contradiction
        · exact .inr (.inl hr)
      | moreAnswers as =>
        refine .of_next? (x := (s, .goto (.answers as))) rfl hstore hunwatched (.of_goto rfl) hbelow
          (hreturns.imp_right fun hr ↦ ?_)
        rcases hr with ⟨-, heq⟩ | hr
        · contradiction
        · exact .inr (.inl hr)
      | _ => contradiction

/-- The first step of the call. -/
theorem Store.Unread.load_step (hs : s₀.Unread) (hroot : (s₀.source? root).isSome) (R : Catalog)
    (hostDefined : Option String) :
    (Machine.start s₀ (.load root hostDefined)).step.OnErrand R s₀ root
      ((Machine.start s₀ (.load root hostDefined)).exchanges ++ [])
      (s₀.startLoading root hostDefined).1 := by
  obtain ⟨t, ht⟩ := Option.isSome_iff_exists.1 hroot
  have hunwatched : (s₀.opened hostDefined).Unwatched :=
    (hs.unwatched.addPromise (P := .pending []) fun rs heq ↦ (Promise.pending.inj heq).symm).of_eq
      rfl (List.Subset.refl _)
  refine .of_next? (x := ((s₀.startLoading root hostDefined).2.2,
      .call (.loading (s₀.startLoading root hostDefined).2.1)
        (.loadPromise (s₀.startLoading root hostDefined).1))) ?_
    (hs.startLoading hroot R hostDefined) (hunwatched.works (s₀.opened_works root hostDefined))
    (.of_call rfl rfl) (List.forall_mem_nil _) (.inr (.inl ⟨⟨_, rfl⟩, rfl⟩))
  simp only [Machine.start, Machine.next?, Task.advance, ht]

variable {hostDefined : Option String} {st : State}

/-- In the course of a schedule there is nothing but the operation, once it has started. -/
theorem Schedule.onErrand (hs : s₀.Unread) (hroot : (s₀.source? root).isSome)
    (hR : ∀ m q d, R m q = some d → (s₀.module? d).isSome)
    (h : Schedule R s₀ root hostDefined st H) :
    st.Charted ∧ ((st = .busy (.load root hostDefined) (.start s₀ (.load root hostDefined)) ∧
      H = []) ∨ st.OnErrand R s₀ root H (s₀.startLoading root hostDefined).1) := by
  induction h with
  | start => exact ⟨Act.begin_charted (a := .load root hostDefined) rfl ⟨hs.charts, hs.refers _⟩,
      .inl ⟨rfl, rfl⟩⟩
  | @step a M H _ ha ih =>
    obtain ⟨hc, hst⟩ := ih
    have hfair : M.Fair M.step := by
      refine ⟨fun m hm ↦ ?_, fun x rest m hx hok ↦ ?_⟩
      · rcases hst with ⟨heq, -⟩ | hst
        · obtain ⟨-, rfl⟩ := State.busy.inj heq
          have hload : Task.load root hostDefined = .evaluate m := Control.run.inj hm
          contradiction
        · have hwrong := Machine.OnErrand.current hst _ hm
          contradiction
      · rcases hst with ⟨heq, -⟩ | hst
        · obtain ⟨-, rfl⟩ := State.busy.inj heq
          have hload : Task.load root hostDefined = .answers (x :: rest) := Control.run.inj hx
          contradiction
        · rw [(Machine.OnErrand.store hst).quotes.isSome]
          exact hR _ _ m (((ha x rest hx).2 m).1 hok)
    refine ⟨hc.turn (.step hfair), .inr ?_⟩
    rcases hst with ⟨heq, rfl⟩ | hst
    · obtain ⟨rfl, rfl⟩ := State.busy.inj heq
      exact hs.load_step hroot R hostDefined
    · exact Machine.OnErrand.step hs hR hst (Machine.Charted.charts hc) ha
  | @consult a M H q s _ hq hconsult ih =>
    obtain ⟨hc, hst⟩ := ih
    refine ⟨hc.turn (.consult hq hconsult), ?_⟩
    rcases hst with ⟨heq, -⟩ | ⟨hstore, hunwatched, hcurrent, hframes, hreturns⟩
    · obtain ⟨-, rfl⟩ := State.busy.inj heq
      contradiction
    · exact .inr ⟨hstore.consult hconsult, hunwatched.consult hconsult, hcurrent, hframes, hreturns⟩
  | @answer a M H q as _ hq ih =>
    obtain ⟨hc, hst⟩ := ih
    refine ⟨hc.turn (.answer as hq), ?_⟩
    rcases hst with ⟨heq, -⟩ | ⟨hstore, hunwatched, hcurrent, hframes, hreturns⟩
    · obtain ⟨-, rfl⟩ := State.busy.inj heq
      contradiction
    · obtain ⟨s, control, fs⟩ := M
      obtain rfl : control = _ := Machine.control_of_question? hq
      refine .inr ⟨hstore, hunwatched, fun t heq ↦ ?_, hframes, hreturns.imp_right fun hr ↦ ?_⟩
      · cases heq
        rfl
      · rcases hr with hr | ⟨-, heq⟩
        · exact .inl hr
        · contradiction
  | @finish a M H r _ hr ih =>
    obtain ⟨hc, hst⟩ := ih
    refine ⟨hc.turn (.finish hr), ?_⟩
    rcases hst with ⟨heq, -⟩ | ⟨hstore, hunwatched, -, -, hreturns⟩
    · obtain ⟨-, rfl⟩ := State.busy.inj heq
      contradiction
    · obtain ⟨s, control, fs⟩ := M
      obtain ⟨rfl, rfl⟩ := Machine.end_of_result? hr
      refine .inr ⟨hstore.returned r, hunwatched, ?_⟩
      rcases hreturns with hr | hr | ⟨-, heq⟩
      · exact List.mem_cons_of_mem _ hr
      · contradiction
      · cases heq
        exact List.mem_cons_self
  | @give s H x _ ih =>
    obtain ⟨hc, hst⟩ := ih
    refine ⟨Act.begin_charted (a := .answer x) rfl hc, .inr ?_⟩
    rcases hst with ⟨heq, -⟩ | ⟨hstore, hunwatched, hreturned⟩
    · contradiction
    · refine ⟨hstore, hunwatched, fun t heq ↦ ?_, List.forall_mem_nil _, .inl hreturned⟩
      cases heq
      rfl
  | @job s H st _ hjob ih =>
    obtain ⟨hc, hst⟩ := ih
    refine ⟨Act.begin_charted hjob hc, .inr ?_⟩
    rcases hst with ⟨heq, -⟩ | ⟨hstore, hunwatched, hreturned⟩
    · contradiction
    · simp only [Act.begin] at hjob
      split at hjob
      · contradiction
      · next j rest hjobs =>
        obtain rfl := Option.some.inj hjob
        refine ⟨hstore.aside rfl rfl fun _ _ ↦ rfl,
          hunwatched.of_eq rfl (hjobs ▸ List.subset_cons_self j rest), fun t heq ↦ ?_,
          List.forall_mem_nil _, .inl hreturned⟩
        cases heq
        exact hunwatched.jobs j (hjobs ▸ List.mem_cons_self)

/-- The order of the answers does not matter. A graph of new modules is loaded from one of them, and
the host answers each request that it is asked for as a fixed function says: at once, or later in
any order. When no request waits for an answer, the promise that the call has given is fulfilled
just when the host has a module for each request of each module that is reached from the first one.
Then these modules are unlinked and no others are, each of them was given what the host has for its
requests, and the host was asked for each of the requests once, and for nothing else. Otherwise the
promise is rejected with the error of the answer that failed first, and all modules are new. -/
theorem order_of_answers_does_not_matter {s : Store} (hs : s₀.Unread)
    (hroot : (s₀.source? root).isSome)
    (hR : ∀ m q d, R m q = some d → (s₀.module? d).isSome)
    (h : Schedule R s₀ root hostDefined (.idle s) H)
    (hanswered : ∀ l r, s.loading? l = some r → r.outstanding = []) :
    ∃ p, .returned (.promise p) ∈ H ∧
      (s.promise? p = some .fulfilled ↔
        ∀ x, R.Reaches s₀ root x → ∀ q ∈ (s₀.entries x).requests, (R x q).isSome) ∧
      (s.promise? p = some .fulfilled →
        (∀ x, (s₀.source? x).isSome → (R.Reaches s₀ root x → s.status? x = some .unlinked) ∧
          (¬R.Reaches s₀ root x → s.status? x = some .new)) ∧
        (∀ x, R.Reaches s₀ root x → ∀ q ∈ (s₀.entries x).requests, s.imported? x q = R x q) ∧
        (askedIn H).Nodup ∧
        ∀ x q, (x, q) ∈ askedIn H ↔ R.Reaches s₀ root x ∧ q ∈ (s₀.entries x).requests) ∧
      (s.promise? p ≠ some .fulfilled →
        (∃ e, s.promise? p = some (.rejected e) ∧ FirstFailure H e) ∧
        ∀ x, (s₀.source? x).isSome → s.status? x = some .new) := by
  obtain ⟨hc, ⟨heq, -⟩ | ⟨hstore, -, hreturned⟩⟩ := h.onErrand hs hroot hR
  · contradiction
  refine ⟨_, hreturned, ?_⟩
  obtain ⟨-, -, r, hp, hseeks | hfound | hlost⟩ := hstore
  · -- an operation that goes on waits for an answer
    have hcharts : s.Charts [] [] := hc.1
    have hcount := (hcharts.charted _ r hseeks.loading hseeks.going).pending
    have hcounts := hseeks.counts
    rw [hcount, hanswered _ r hseeks.loading] at hcounts
    contradiction
  · rw [← hp, hfound.promise]
    refine ⟨⟨fun _ x hx q hq ↦ ?_, fun _ ↦ rfl⟩, fun _ ↦ ⟨fun x hx ↦ ⟨hfound.unlinked x hx,
      hfound.new x hx⟩, fun x hx q hq ↦ ?_, hfound.nodup, hfound.asked⟩, fun hne ↦ absurd rfl hne⟩
    · obtain ⟨d, hd, -⟩ := hfound.known x hx q hq
      rw [hd]
      rfl
    · obtain ⟨d, hd, himported⟩ := hfound.known x hx q hq
      rw [hd, himported]
  · obtain ⟨e, he, hfirst⟩ := hlost.failed
    rw [← hp, he]
    have hne : some (Promise.rejected e) ≠ some .fulfilled := by simp
    refine ⟨⟨fun heq ↦ absurd heq hne, fun hall ↦ ?_⟩, fun heq ↦ absurd heq hne,
      fun _ ↦ ⟨⟨e, rfl, hfirst⟩, hlost.new⟩⟩
    obtain ⟨x, q, hx, hq, hnone⟩ := hlost.fails
    have hsome := hall x hx q hq
    rw [hnone] at hsome
    contradiction

end

/-! ## Two modules that request each other -/

/-- The condition on a step, as it can be computed. -/
def Machine.heedsNow (R : Catalog) (M : Machine) : Bool :=
  match M.control with
  | .run (.answers (x :: _)) =>
    (M.store.loading? x.call.loading).any (·.outstanding.contains x.wanted) &&
      x.outcome.toOption == R x.call.referrer x.call.request
  | _ => true

theorem Machine.heeds_of_heedsNow {R : Catalog} {M : Machine} (h : M.heedsNow R = true)
    (x : LoadAnswer) (rest : List LoadAnswer) (hx : M.control = .run (.answers (x :: rest))) :
    M.store.Heeds R x := by
  rw [heedsNow, hx, Bool.and_eq_true, beq_iff_eq, Option.any_eq_true] at h
  obtain ⟨⟨r, hr, hmem⟩, houtcome⟩ := h
  refine ⟨⟨r, hr, List.contains_iff_mem.1 hmem⟩, fun d ↦ ?_⟩
  rw [← houtcome]
  rcases x.outcome with e | d'
  · simp [Except.toOption]
  · simp [Except.toOption]

/-- Steps of a schedule that pass a check. -/
theorem Schedule.steps {R : Catalog} {s₀ : Store} {root : ModuleId} {hostDefined : Option String}
    {a : Act} {M : Machine} {H : List Exchange} (n : Nat)
    (h : Schedule R s₀ root hostDefined (.busy a M) H)
    (hcheck : ∀ i < n, (Machine.step^[i] M).heedsNow R = true) :
    ∃ H', Schedule R s₀ root hostDefined (.busy a (Machine.step^[n] M)) H' := by
  induction n with
  | zero => exact ⟨H, h⟩
  | succ n ih =>
    obtain ⟨H', h'⟩ := ih fun i hi ↦ hcheck i (hi.trans n.lt_succ_self)
    rw [Function.iterate_succ_apply']
    exact ⟨_, h'.step (Machine.heeds_of_heedsNow (hcheck n n.lt_succ_self))⟩

namespace mutualGraph

/-- What the host has: to each of the two modules it gives the other one. -/
def catalog : Catalog := fun m _ ↦ if m = ⟨0⟩ then some ⟨1⟩ else some ⟨0⟩

/-- The answer that was put off is taken, and the host is asked for what the second module
requests. -/
def reminded : Machine :=
  Machine.step^[2] (.start waiting.store (.answers [⟨⟨⟨0⟩, ⟨0⟩, { specifier := "b" }⟩, .ok ⟨1⟩⟩]))

/-- The second answer is given at once, and the graph is loaded. -/
def settled : Machine :=
  Machine.step^[12] (reminded.answer [⟨⟨⟨0⟩, ⟨1⟩, { specifier := "a" }⟩, .ok ⟨0⟩⟩])

end mutualGraph

theorem order_of_answers_does_not_matter_mutualGraph :
    mutualGraph.Unread ∧ (mutualGraph.source? ⟨0⟩).isSome ∧
      (∀ m q d, mutualGraph.catalog m q = some d → (mutualGraph.module? d).isSome) ∧
      (∃ H, Schedule mutualGraph.catalog mutualGraph ⟨0⟩ none (.idle mutualGraph.settled.store) H ∧
        ∃ p, .returned (.promise p) ∈ H ∧
          mutualGraph.settled.store.promise? p = some .fulfilled ∧ (askedIn H).Nodup) ∧
      ∀ l r, mutualGraph.settled.store.loading? l = some r → r.outstanding = [] := by
  have hsome : ∀ {α : Type} {o : Option α}, o.isSome = true → ∃ x, o = some x :=
    Option.isSome_iff_exists.1
  have hhoused : ∀ m q d, mutualGraph.catalog m q = some d → (mutualGraph.module? d).isSome := by
    intro m q d hd
    rw [mutualGraph.catalog] at hd
    split at hd <;> obtain rfl := Option.some.inj hd <;> rfl
  have hroot : (mutualGraph.source? ⟨0⟩).isSome := rfl
  have hanswered : ∀ l r, mutualGraph.settled.store.loading? l = some r → r.outstanding = [] := by
    have hall : mutualGraph.settled.store.loadings.toList.all (·.outstanding.isEmpty) = true := by
      decide +kernel
    intro l r hr
    have hmem := List.mem_of_getElem? ((Array.getElem?_toList).trans hr)
    exact List.isEmpty_iff.1 (List.all_eq_true.1 hall r hmem)
  obtain ⟨_, hasked⟩ := hsome (o := mutualGraph.asked.question?) (by decide +kernel)
  obtain ⟨_, hwaiting⟩ := hsome (o := mutualGraph.waiting.result?) (by decide +kernel)
  obtain ⟨_, hreminded⟩ := hsome (o := mutualGraph.reminded.question?) (by decide +kernel)
  obtain ⟨_, hsettled⟩ := hsome (o := mutualGraph.settled.result?) (by decide +kernel)
  -- the first answer is put off, and the second one is given at once
  have hstart : Schedule mutualGraph.catalog mutualGraph ⟨0⟩ none _ _ := .start
  obtain ⟨_, h₁⟩ := hstart.steps 2 (by decide +kernel)
  obtain ⟨_, h₂⟩ := (h₁.answer [] hasked).steps 5 (by decide +kernel)
  obtain ⟨_, h₃⟩ := ((h₂.finish hwaiting).give
    ⟨⟨⟨0⟩, ⟨0⟩, { specifier := "b" }⟩, .ok ⟨1⟩⟩).steps 2 (by decide +kernel)
  obtain ⟨H, h₄⟩ := (h₃.answer
    [⟨⟨⟨0⟩, ⟨1⟩, { specifier := "a" }⟩, .ok ⟨0⟩⟩] hreminded).steps 12 (by decide +kernel)
  have hschedule := h₄.finish hsettled
  refine ⟨mutualGraph.unread, hroot, hhoused, ⟨_, hschedule, ?_⟩, hanswered⟩
  obtain ⟨p, hreturned, hiff, hspec, -⟩ := order_of_answers_does_not_matter mutualGraph.unread hroot
    hhoused hschedule hanswered
  have hfulfilled : mutualGraph.settled.store.promise? p = some .fulfilled := by
    refine hiff.2 fun x _ q _ ↦ ?_
    rw [mutualGraph.catalog]
    split <;> rfl
  exact ⟨p, hreturned, hfulfilled, (hspec hfulfilled).2.2.1⟩

end EcmaModules
