import EcmaModules.Proofs.Moves

/-!
# Tokens

When a module that awaits is executed it gets a promise, and a reaction to that promise is the one
thing by which evaluation goes on with the module. The reaction, and later the job that comes of it,
is a token for the module. There is never more than one, and none can get lost as long as jobs are
kept.
-/

namespace EcmaModules

/-- Evaluation goes on with the module. -/
def Reaction.completes (m : ModuleId) : Reaction → Bool
  | .completeModule x => x == m
  | _ => false

namespace Store

/-- The reactions that wait for the promise. -/
def reactions (s : Store) (p : PromiseId) : List Reaction :=
  match s.promise? p with
  | some (.pending rs) => rs
  | _ => []

/-- How many reactions to the promise, and jobs, go on with the module. -/
def tokens (s : Store) (hand : List Job) (m : ModuleId) (p : PromiseId) : Nat :=
  (hand ++ s.jobs).countP (·.reaction.completes m) + (s.reactions p).countP (·.completes m)

/-! ## Promises after a change -/

theorem promise?_set (s : Store) (p q : PromiseId) (P : Promise) :
    ({ s with promises := s.promises.set! p.index P } : Store).promise? q =
      if q = p ∧ (s.promise? p).isSome then some P else s.promise? q := by
  obtain ⟨i⟩ := p
  obtain ⟨j⟩ := q
  simp only [promise?, Array.set!_eq_setIfInBounds, PromiseId.mk.injEq]
  by_cases hij : j = i
  · subst hij
    by_cases hlt : j < s.promises.size
    · simp [hlt]
    · simp [hlt]
  · simp [hij, Array.getElem?_setIfInBounds_ne (Ne.symm hij)]

theorem promise?_enqueue (s : Store) (jobs : List Job) (q : PromiseId) :
    (s.enqueue jobs).promise? q = s.promise? q := by
  unfold enqueue
  split <;> rfl

theorem keepsJobs_enqueue (s : Store) (jobs : List Job) :
    (s.enqueue jobs).keepsJobs = s.keepsJobs := by
  unfold enqueue
  split <;> rfl

theorem jobs_enqueue (s : Store) (jobs : List Job) :
    (s.enqueue jobs).jobs = if s.keepsJobs then s.jobs ++ jobs else s.jobs := by
  unfold enqueue
  split <;> rfl

theorem reactions_eq {s s' : Store} {p : PromiseId} (h : s'.promise? p = s.promise? p) :
    s'.reactions p = s.reactions p := by
  unfold reactions
  rw [h]

/-- Settling a promise that is pending. -/
theorem settle_pending {s : Store} {p : PromiseId} {rs : List Reaction} (c : Completion)
    (h : s.promise? p = some (.pending rs)) :
    s.settle p c =
      { s with promises := s.promises.set! p.index (settledState c) }.enqueue
        (rs.map fun r ↦ ⟨r, c⟩) := by
  unfold settle
  rw [h]

/-- Settling a promise that is not pending. -/
theorem settle_of_not_pending {s : Store} {p : PromiseId} (c : Completion)
    (h : ∀ rs, s.promise? p ≠ some (.pending rs)) : s.settle p c = s := by
  unfold settle
  split
  · next rs heq => exact absurd heq (h rs)
  · rfl

theorem promise?_settle {s : Store} {p : PromiseId} {rs : List Reaction}
    (h : s.promise? p = some (.pending rs)) (q : PromiseId) (c : Completion) :
    (s.settle p c).promise? q = if q = p then some (settledState c) else s.promise? q := by
  rw [settle_pending c h, promise?_enqueue, promise?_set]
  simp [h]

theorem promise?_addPromise (s : Store) (P : Promise) (q : PromiseId) :
    (s.addPromise P).2.promise? q =
      if q.index = s.promises.size then some P else s.promise? q := by
  simp only [addPromise, promise?, Array.getElem?_push]

theorem promise?_addPromise_self (s : Store) (P : Promise) :
    (s.addPromise P).2.promise? (s.addPromise P).1 = some P := by
  rw [promise?_addPromise, addPromise, if_pos rfl]

theorem settledState_ne_pending (c : Completion) (rs : List Reaction) :
    settledState c ≠ .pending rs := by
  rcases c with e | ⟨⟩ <;> exact nofun

theorem settledState_inj {c c' : Completion} (h : settledState c = settledState c') : c = c' := by
  rcases c with e | ⟨⟩ <;> rcases c' with e' | ⟨⟩ <;> simp_all [settledState]

end Store

/-! ## The invariant -/

/-- The tokens of a store in hand. -/
structure Ledger (s : Store) (hand : List Job) (H : List Event) : Prop where
  made : ∀ m p, .began m (some p) ∈ H → (s.promise? p).isSome
  reaction : ∀ m p, .completeModule m ∈ s.reactions p → .began m (some p) ∈ H
  job : ∀ m c, ⟨.completeModule m, c⟩ ∈ hand ++ s.jobs →
    ∃ p, .began m (some p) ∈ H ∧ s.promise? p = some (Store.settledState c)
  single : ∀ m p, .began m (some p) ∈ H → s.tokens hand m p ≤ 1

/-- No body was called with two promises. -/
def SinglyBegun (H : List Event) : Prop :=
  ∀ m p p', .began m (some p) ∈ H → .began m (some p') ∈ H → p = p'

/-- What becomes of promises and tokens. -/
structure Carried (s s' : Store) (hand : List Job) (H : List Event) : Prop where
  keepsJobs : s'.keepsJobs = s.keepsJobs
  settled : ∀ p c, s.promise? p = some (Store.settledState c) →
    s'.promise? p = some (Store.settledState c)
  tokens : ∀ m p, .began m (some p) ∈ H → s'.tokens hand m p ≤ s.tokens hand m p ∧
    (s.keepsJobs = true → s'.tokens hand m p = s.tokens hand m p)

namespace Carried

variable {s s' s'' : Store} {hand : List Job} {H : List Event}

theorem refl (s : Store) (hand : List Job) (H : List Event) : Carried s s hand H :=
  ⟨rfl, fun _ _ h ↦ h, fun _ _ _ ↦ ⟨Nat.le_refl _, fun _ ↦ rfl⟩⟩

theorem trans (h : Carried s s' hand H) (h' : Carried s' s'' hand H) : Carried s s'' hand H where
  keepsJobs := h'.keepsJobs.trans h.keepsJobs
  settled p c hp := h'.settled p c (h.settled p c hp)
  tokens m p hb := ⟨Nat.le_trans (h'.tokens m p hb).1 (h.tokens m p hb).1, fun hk ↦
    ((h'.tokens m p hb).2 (h.keepsJobs ▸ hk)).trans ((h.tokens m p hb).2 hk)⟩

end Carried

namespace Ledger

variable {s s' : Store} {hand : List Job} {H : List Event}

theorem of_eq (h : Ledger s hand H) (hp : s'.promises = s.promises) (hj : s'.jobs = s.jobs)
    (hk : s'.keepsJobs = s.keepsJobs) : Ledger s' hand H ∧ Carried s s' hand H := by
  have hp' : ∀ p, s'.promise? p = s.promise? p := fun p ↦ by simp only [Store.promise?, hp]
  have ht : ∀ m p, s'.tokens hand m p = s.tokens hand m p := fun m p ↦ by
    simp only [Store.tokens, hj, Store.reactions_eq (hp' p)]
  refine ⟨⟨fun m p hb ↦ ?_, fun m p hm ↦ ?_, fun m c hm ↦ ?_, fun m p hb ↦ ?_⟩, hk,
    fun p c hc ↦ by rw [hp', hc], fun m p _ ↦ ⟨Nat.le_of_eq (ht m p), fun _ ↦ ht m p⟩⟩
  · rw [hp']
    exact h.made m p hb
  · rw [Store.reactions_eq (hp' p)] at hm
    exact h.reaction m p hm
  · rw [hj] at hm
    obtain ⟨p, hb, hc⟩ := h.job m c hm
    exact ⟨p, hb, by rw [hp', hc]⟩
  · rw [ht]
    exact h.single m p hb

theorem countP_reactions_eq_zero (h : Ledger s hand H) (hH : SinglyBegun H) {m : ModuleId}
    {p p' : PromiseId} (hb : .began m (some p) ∈ H) (hne : p' ≠ p) :
    (s.reactions p').countP (·.completes m) = 0 := by
  refine List.countP_eq_zero.2 fun r hr hc ↦ ?_
  cases r with
  | completeModule x =>
    obtain rfl : x = m := by simpa [Reaction.completes] using hc
    exact hne (hH _ _ _ (h.reaction x p' hr) hb)
  | _ => exact nomatch hc

/-- Settling a promise turns its reactions into jobs. -/
theorem settle (h : Ledger s hand H) (hH : SinglyBegun H) (p : PromiseId) (c : Completion) :
    Ledger (s.settle p c) hand H ∧ Carried s (s.settle p c) hand H := by
  by_cases hp : ∃ rs, s.promise? p = some (.pending rs)
  swap
  · rw [Store.settle_of_not_pending c fun rs hrs ↦ hp ⟨rs, hrs⟩]
    exact ⟨h, .refl s hand H⟩
  obtain ⟨rs, hrs⟩ := hp
  have hpromise : ∀ q, (s.settle p c).promise? q =
      if q = p then some (Store.settledState c) else s.promise? q := fun q ↦
    Store.promise?_settle hrs q c
  have hjobs : (s.settle p c).jobs =
      if s.keepsJobs then s.jobs ++ rs.map (fun r ↦ ⟨r, c⟩) else s.jobs := by
    rw [Store.settle_pending c hrs, Store.jobs_enqueue]
  have hkeeps : (s.settle p c).keepsJobs = s.keepsJobs := by
    rw [Store.settle_pending c hrs, Store.keepsJobs_enqueue]
  have hreactions : s.reactions p = rs := by simp [Store.reactions, hrs]
  have hreactions' : ∀ q, (s.settle p c).reactions q = if q = p then [] else s.reactions q := by
    intro q
    simp only [Store.reactions, hpromise]
    by_cases hqp : q = p
    · simp only [hqp, if_true]
      rcases c with e | ⟨⟩ <;> rfl
    · simp only [hqp, if_false]
  have hmap : ∀ m, (rs.map fun r ↦ (⟨r, c⟩ : Job)).countP (·.reaction.completes m) =
      rs.countP (·.completes m) := fun m ↦ by
    rw [List.countP_map]
    rfl
  have hsettled : ∀ q c', s.promise? q = some (Store.settledState c') → q ≠ p := by
    rintro q c' hq rfl
    rw [hrs] at hq
    exact Store.settledState_ne_pending c' rs (Option.some.inj hq).symm
  have htokens : ∀ m q, .began m (some q) ∈ H →
      (s.settle p c).tokens hand m q ≤ s.tokens hand m q ∧
        (s.keepsJobs = true → (s.settle p c).tokens hand m q = s.tokens hand m q) := by
    intro m q hb
    have hsum : (if s.keepsJobs then (rs.map fun r ↦ (⟨r, c⟩ : Job)).countP
        (·.reaction.completes m) else 0) + ((s.settle p c).reactions q).countP (·.completes m) ≤
          (s.reactions q).countP (·.completes m) ∧ (s.keepsJobs = true →
        (rs.map fun r ↦ (⟨r, c⟩ : Job)).countP (·.reaction.completes m) +
          ((s.settle p c).reactions q).countP (·.completes m) =
            (s.reactions q).countP (·.completes m)) := by
      rw [hmap, hreactions']
      by_cases hqp : q = p
      · subst hqp
        rw [hreactions]
        split <;> simp
      · have := h.countP_reactions_eq_zero hH hb (Ne.symm hqp)
        rw [hreactions] at this
        simp [hqp, this]
    unfold Store.tokens
    rw [hjobs]
    split
    · next hk =>
      have heq := hsum.2 hk
      simp only [List.countP_append]
      omega
    · next hk =>
      rw [if_neg hk] at hsum
      exact ⟨by omega, fun h ↦ absurd h hk⟩
  refine ⟨⟨fun m q hb ↦ ?_, fun m q hm ↦ ?_, fun m c' hm ↦ ?_, fun m q hb ↦ ?_⟩, hkeeps,
    fun q c' hq ↦ ?_, htokens⟩
  · rw [hpromise]
    split
    · rfl
    · exact h.made m q hb
  · rw [hreactions'] at hm
    split at hm
    · exact absurd hm List.not_mem_nil
    · exact h.reaction m q hm
  · have hcases : ⟨.completeModule m, c'⟩ ∈ hand ++ s.jobs ∨
        (.completeModule m ∈ rs ∧ c' = c) := by
      rw [hjobs] at hm
      split at hm
      · rw [← List.append_assoc, List.mem_append] at hm
        refine hm.imp id fun hm ↦ ?_
        obtain ⟨r, hr, heq⟩ := List.mem_map.1 hm
        cases heq
        exact ⟨hr, rfl⟩
      · exact .inl hm
    rcases hcases with hold | ⟨hnew, rfl⟩
    · obtain ⟨q, hb, hq⟩ := h.job m c' hold
      exact ⟨q, hb, by rw [hpromise, if_neg (hsettled q c' hq), hq]⟩
    · exact ⟨p, h.reaction m p (hreactions ▸ hnew), by rw [hpromise, if_pos rfl]⟩
  · exact Nat.le_trans (htokens m q hb).1 (h.single m q hb)
  · rw [hpromise, if_neg (hsettled q c' hq), hq]

/-- A new promise. -/
theorem addPromise (h : Ledger s hand H) {P : Promise} (hP : ∀ rs, P = .pending rs → rs = []) :
    Ledger (s.addPromise P).2 hand H ∧ Carried s (s.addPromise P).2 hand H := by
  have hold : ∀ p, (s.promise? p).isSome → (s.addPromise P).2.promise? p = s.promise? p := by
    intro p hp
    rw [Store.promise?_addPromise, if_neg]
    rintro he
    simp [Store.promise?, he] at hp
  have hreactions : ∀ p, (s.addPromise P).2.reactions p = s.reactions p := by
    intro p
    by_cases hp : (s.promise? p).isSome
    · exact Store.reactions_eq (hold p hp)
    · have hnone : s.promise? p = none := by simpa using hp
      simp only [Store.reactions, Store.promise?_addPromise, hnone]
      split
      · next rs heq =>
        split at heq
        · exact hP rs (Option.some.inj heq)
        · exact nomatch heq
      · rfl
  have htokens : ∀ m p, (s.addPromise P).2.tokens hand m p = s.tokens hand m p := fun m p ↦ by
    simp only [Store.tokens, hreactions]
    rfl
  refine ⟨⟨fun m p hb ↦ ?_, fun m p hm ↦ ?_, fun m c hm ↦ ?_, fun m p hb ↦ ?_⟩, rfl,
    fun p c hc ↦ ?_, fun m p _ ↦ ⟨Nat.le_of_eq (htokens m p), fun _ ↦ htokens m p⟩⟩
  · rw [hold p (h.made m p hb)]
    exact h.made m p hb
  · exact h.reaction m p (hreactions p ▸ hm)
  · obtain ⟨p, hb, hc⟩ := h.job m c hm
    exact ⟨p, hb, by rw [hold p (by simp [hc]), hc]⟩
  · rw [htokens]
    exact h.single m p hb
  · rw [hold p (by simp [hc]), hc]

theorem completes_eq_false {r : Reaction} (hr : ∀ m, r ≠ .completeModule m) (m : ModuleId) :
    r.completes m = false := by
  cases r with
  | completeModule x => exact absurd rfl (hr x)
  | _ => rfl

/-- A job by which evaluation does not go on. -/
theorem enqueue (h : Ledger s hand H) {r : Reaction} (hr : ∀ m, r ≠ .completeModule m)
    (c : Completion) :
    Ledger (s.enqueue [⟨r, c⟩]) hand H ∧ Carried s (s.enqueue [⟨r, c⟩]) hand H := by
  have hmem : ∀ j, j ∈ hand ++ (s.enqueue [⟨r, c⟩]).jobs → j ∈ hand ++ s.jobs ∨ j = ⟨r, c⟩ := by
    intro j hj
    rw [Store.jobs_enqueue] at hj
    split at hj
    · rw [← List.append_assoc, List.mem_append, List.mem_singleton] at hj
      exact hj
    · exact .inl hj
  have ht : ∀ m q, (s.enqueue [⟨r, c⟩]).tokens hand m q = s.tokens hand m q := fun m q ↦ by
    unfold Store.tokens
    rw [Store.reactions_eq (s.promise?_enqueue _ q), Store.jobs_enqueue]
    split <;> simp [completes_eq_false hr]
  refine ⟨⟨fun m q hb ↦ ?_, fun m q hm ↦ ?_, fun m c' hm ↦ ?_, fun m q hb ↦ ?_⟩,
    s.keepsJobs_enqueue _, fun q c' hc ↦ by rw [s.promise?_enqueue, hc],
    fun m q _ ↦ ⟨Nat.le_of_eq (ht m q), fun _ ↦ ht m q⟩⟩
  · rw [s.promise?_enqueue]
    exact h.made m q hb
  · exact h.reaction m q (Store.reactions_eq (s.promise?_enqueue _ q) ▸ hm)
  · rcases hmem _ hm with hm | hm
    · obtain ⟨q, hb, hq⟩ := h.job m c' hm
      exact ⟨q, hb, by rw [s.promise?_enqueue, hq]⟩
    · exact absurd (congrArg Job.reaction hm).symm (hr m)
  · rw [ht]
    exact h.single m q hb

/-- One more reaction to a promise that is pending. -/
theorem append (h : Ledger s hand H) {p : PromiseId} {r : Reaction} {rs : List Reaction}
    (hr : ∀ m, r ≠ .completeModule m) (hp : s.promise? p = some (.pending rs))
    (hs : s' = { s with promises := s.promises.set! p.index (.pending (rs ++ [r])) }) :
    Ledger s' hand H ∧ Carried s s' hand H := by
  have hpromise : ∀ q, s'.promise? q =
      if q = p then some (.pending (rs ++ [r])) else s.promise? q := fun q ↦ by
    rw [hs, Store.promise?_set, hp]
    simp
  have hjobs : s'.jobs = s.jobs := by rw [hs]
  have hreactions : ∀ q, s'.reactions q = if q = p then rs ++ [r] else s.reactions q := fun q ↦ by
    simp only [Store.reactions, hpromise]
    by_cases hqp : q = p
    · simp [hqp]
    · simp [hqp]
  have hold : s.reactions p = rs := by simp [Store.reactions, hp]
  have ht : ∀ m q, s'.tokens hand m q = s.tokens hand m q := fun m q ↦ by
    unfold Store.tokens
    rw [hreactions, hjobs]
    by_cases hqp : q = p
    · simp [hqp, hold, completes_eq_false hr]
    · simp [hqp]
  have hsettled : ∀ q c, s.promise? q = some (Store.settledState c) → q ≠ p := by
    rintro q c hq rfl
    rw [hp] at hq
    exact Store.settledState_ne_pending c rs (Option.some.inj hq).symm
  refine ⟨⟨fun m q hb ↦ ?_, fun m q hm ↦ ?_, fun m c' hm ↦ ?_, fun m q hb ↦ ?_⟩, by rw [hs],
    fun q c' hc ↦ ?_, fun m q _ ↦ ⟨Nat.le_of_eq (ht m q), fun _ ↦ ht m q⟩⟩
  · rw [hpromise]
    split
    · rfl
    · exact h.made m q hb
  · rw [hreactions] at hm
    split at hm
    · next hqp =>
      rcases List.mem_append.1 hm with hm | hm
      · exact hqp ▸ h.reaction m p (hold ▸ hm)
      · exact absurd (List.mem_singleton.1 hm).symm (hr m)
    · exact h.reaction m q hm
  · rw [hjobs] at hm
    obtain ⟨q, hb, hq⟩ := h.job m c' hm
    exact ⟨q, hb, by rw [hpromise, if_neg (hsettled q c' hq), hq]⟩
  · rw [ht]
    exact h.single m q hb
  · rw [hpromise, if_neg (hsettled q c' hc), hc]

/-- A reaction by which evaluation does not go on. -/
theorem react (h : Ledger s hand H) (p : PromiseId) {r : Reaction}
    (hr : ∀ m, r ≠ .completeModule m) :
    Ledger (s.react p r) hand H ∧ Carried s (s.react p r) hand H := by
  unfold Store.react
  split
  · next rs hrs => exact h.append hr hrs rfl
  · exact h.enqueue hr _
  · exact h.enqueue hr _
  · exact ⟨h, .refl s hand H⟩

/-- The job in hand is done with. -/
theorem drop {j : Job} (h : Ledger s (j :: hand) H) : Ledger s hand H := by
  refine ⟨h.made, h.reaction, fun m c hm ↦ h.job m c (List.mem_cons_of_mem _ hm), fun m p hb ↦ ?_⟩
  have := h.single m p hb
  simp only [Store.tokens, List.cons_append, List.countP_cons] at this ⊢
  omega

/-- A module that awaits is executed, and gets its token. -/
theorem startAsync (h : Ledger s hand H) {m : ModuleId} (hb : ¬∃ c, .began m c ∈ H) :
    Ledger (s.startAsync m).2 hand (.began m (some (s.startAsync m).1) :: H) ∧
      Carried s (s.startAsync m).2 hand H ∧
      (s.startAsync m).2.tokens hand m (s.startAsync m).1 = 1 := by
  set p : PromiseId := (s.startAsync m).1 with hp
  have hp' : p.index = s.promises.size := rfl
  have hpromise : ∀ q, (s.startAsync m).2.promise? q =
      if q = p then some (.pending [.completeModule m]) else s.promise? q := by
    intro q
    have h1 : (s.holdModule m).newPromise.2.promise? p = some (.pending []) :=
      Store.promise?_addPromise_self _ _
    have h2 : (s.startAsync m).2 = { (s.holdModule m).newPromise.2 with
        promises := (s.holdModule m).newPromise.2.promises.set! p.index
          (.pending [.completeModule m]) } := by
      change (s.holdModule m).newPromise.2.react p (.completeModule m) = _
      unfold Store.react
      rw [h1]
      rfl
    rw [h2, Store.promise?_set, h1]
    simp only [Option.isSome_some, and_true]
    by_cases hqp : q = p
    · simp [hqp]
    · rw [if_neg hqp, if_neg hqp]
      refine (Store.promise?_addPromise _ _ q).trans (if_neg fun hi ↦ hqp ?_)
      obtain ⟨i⟩ := q
      exact congrArg PromiseId.mk hi
  have hjobs : (s.startAsync m).2.jobs = s.jobs ∧ (s.startAsync m).2.keepsJobs = s.keepsJobs := by
    have h1 : (s.holdModule m).newPromise.2.promise? p = some (.pending []) :=
      Store.promise?_addPromise_self _ _
    change ((s.holdModule m).newPromise.2.react p (.completeModule m)).jobs = _ ∧
      ((s.holdModule m).newPromise.2.react p (.completeModule m)).keepsJobs = _
    unfold Store.react
    rw [h1]
    exact ⟨rfl, rfl⟩
  have hfresh : s.promise? p = none := by simp [Store.promise?, hp']
  have hreactions : ∀ q, (s.startAsync m).2.reactions q =
      if q = p then [.completeModule m] else s.reactions q := fun q ↦ by
    simp only [Store.reactions, hpromise]
    by_cases hqp : q = p
    · simp [hqp]
    · simp [hqp]
  have hne : ∀ x q, .began x (some q) ∈ H → q ≠ p := by
    rintro x q hb rfl
    have := h.made x _ hb
    simp [hfresh] at this
  have hnone : (hand ++ s.jobs).countP (·.reaction.completes m) = 0 := by
    refine List.countP_eq_zero.2 fun ⟨r, c⟩ hr hc ↦ ?_
    cases r with
    | completeModule x =>
      obtain rfl : x = m := by simpa [Reaction.completes] using hc
      obtain ⟨q, hq, -⟩ := h.job x c hr
      exact hb ⟨_, hq⟩
    | _ => exact nomatch hc
  have htokens : ∀ x q, .began x (some q) ∈ H →
      (s.startAsync m).2.tokens hand x q = s.tokens hand x q := fun x q hx ↦ by
    simp only [Store.tokens, hjobs.1, hreactions, if_neg (hne x q hx)]
  have hone : (s.startAsync m).2.tokens hand m p = 1 := by
    simp only [Store.tokens, hjobs.1, hnone, hreactions, if_true]
    simp [Reaction.completes]
  refine ⟨⟨fun x q hx ↦ ?_, fun x q hx ↦ ?_, fun x c hx ↦ ?_, fun x q hx ↦ ?_⟩,
    ⟨hjobs.2, fun q c hc ↦ ?_, fun x q hx ↦ ⟨Nat.le_of_eq (htokens x q hx), fun _ ↦ htokens x q hx⟩⟩,
    hone⟩
  · rw [hpromise]
    split
    · rfl
    · next hqp =>
      rcases List.mem_cons.1 hx with hx | hx
      · cases hx
        exact absurd rfl hqp
      · exact h.made x q hx
  · rw [hreactions] at hx
    split at hx
    · next hqp =>
      obtain rfl : x = m := by simpa using hx
      rw [hqp]
      exact List.mem_cons_self
    · exact List.mem_cons_of_mem _ (h.reaction x q hx)
  · rw [hjobs.1] at hx
    obtain ⟨q, hq, hc⟩ := h.job x c hx
    exact ⟨q, List.mem_cons_of_mem _ hq, by rw [hpromise, if_neg (hne x q hq), hc]⟩
  · rcases List.mem_cons.1 hx with hx | hx
    · cases hx
      exact Nat.le_of_eq hone
    · rw [htokens x q hx]
      exact h.single x q hx
  · rw [hpromise, if_neg, hc]
    rintro rfl
    simp [hfresh] at hc

end Ledger

/-! ## Changes by which no module is begun -/

/-- A change of promises and jobs that is made up of settling, of new promises and of reactions by
which evaluation does not go on. -/
inductive Settles : Store → Store → Prop where
  | same {s s' : Store} : s'.promises = s.promises → s'.jobs = s.jobs →
      s'.keepsJobs = s.keepsJobs → Settles s s'
  | settle (s : Store) (p : PromiseId) (c : Completion) : Settles s (s.settle p c)
  | react (s : Store) (p : PromiseId) {r : Reaction} :
      (∀ m, r ≠ .completeModule m) → Settles s (s.react p r)
  | addPromise (s : Store) {q : Promise} :
      (∀ rs, q = .pending rs → rs = []) → Settles s (s.addPromise q).2
  | trans {s s' s'' : Store} : Settles s s' → Settles s' s'' → Settles s s''

theorem Aside.settles {K : Store → Store → Prop} {s s' : Store} (h : Aside K s s') :
    Settles s s' := by
  induction h with
  | view _ hp hj hk _ => exact .same hp hj hk
  | settle s p c => exact .settle s p c
  | react s p hr => exact .react s p hr
  | addPromise s hq => exact .addPromise s hq
  | trans _ _ ih ih' => exact ih.trans ih'

theorem Ledger.settles {s s' : Store} {hand : List Job} {H : List Event} (h : Ledger s hand H)
    (hH : SinglyBegun H) (hs : Settles s s') : Ledger s' hand H ∧ Carried s s' hand H := by
  induction hs with
  | same hp hj hk => exact h.of_eq hp hj hk
  | settle s p c => exact h.settle hH p c
  | react s p hr => exact h.react p hr
  | addPromise s hq => exact h.addPromise hq
  | trans _ _ ih ih' =>
    obtain ⟨h', hc⟩ := ih h
    obtain ⟨h'', hc'⟩ := ih' h'
    exact ⟨h'', hc.trans hc'⟩

namespace Settles

theorem refl (s : Store) : Settles s s := .same rfl rfl rfl

theorem modifySource (s : Store) (m : ModuleId) (f : SourceText → SourceText) :
    Settles s (s.modifySource m f) := .same rfl rfl rfl

theorem foldl {α : Type} {f : Store → α → Store} (hf : ∀ s a, Settles s (f s a)) (l : List α)
    (s : Store) : Settles s (l.foldl f s) := by
  induction l generalizing s with
  | nil => exact .refl s
  | cons a l ih => exact (hf s a).trans (ih _)

theorem await (s : Store) (m d : ModuleId) : Settles s (EvaluationWalk.await s m d) := by
  unfold EvaluationWalk.await
  split
  · split
    · exact (modifySource s _ _).trans (modifySource _ _ _)
    · exact .refl s
  · exact .refl s

theorem detach (s : Store) (w : EvaluationWalk) (m : ModuleId) :
    Settles s (EvaluationWalk.detach s w m) := by
  unfold EvaluationWalk.detach
  split
  · exact modifySource s _ _
  · exact .refl s

theorem newCapability (s : Store) (m : ModuleId) : Settles s (s.newCapability m).2 :=
  .trans (.addPromise s fun _ h ↦ by cases h; rfl) (modifySource _ _ _)

theorem resolveCapability (s : Store) (m : ModuleId) : Settles s (s.resolveCapability m) := by
  unfold Store.resolveCapability
  split
  · exact .settle s _ _
  · exact .refl s

theorem rejectCapability (s : Store) (m : ModuleId) (e : ErrorId) :
    Settles s (s.rejectCapability m e) := by
  unfold Store.rejectCapability
  split
  · exact .settle s _ _
  · exact .refl s

theorem finishModule (s : Store) (m : ModuleId) : Settles s (s.finishModule m) :=
  ((modifySource s _ _).trans (modifySource _ _ _)).trans (resolveCapability _ _)

theorem finishSearched (s : Store) (m : ModuleId) : Settles s (s.finishSearched m) :=
  ((modifySource s _ _).trans (modifySource _ _ _)).trans (resolveCapability _ _)

theorem rejectFrom (depth : Nat) (s : Store) (m : ModuleId) (e : ErrorId) :
    Settles s (s.rejectFrom depth m e) := by
  induction depth generalizing s m with
  | zero => exact .refl s
  | succ depth ih =>
    unfold Store.rejectFrom
    split
    · exact .refl s
    · exact ((modifySource s _ _).trans (foldl (fun s p ↦ ih s p) _ _)).trans
        (rejectCapability _ _ _)

theorem finish (s : Store) (goal : EvaluationGoal) : Settles s (goal.finish s).1 := by
  cases goal with
  | promise root p =>
    simp only [EvaluationGoal.finish, Store.finishEvaluation]
    split
    · exact .settle s _ _
    · exact .refl s
  | force m =>
    simp only [EvaluationGoal.finish, Store.finishForced]
    split
    · exact .refl s
    · exact .same rfl rfl rfl

theorem failModules (s : Store) (stack : List ModuleId) (e : ErrorId) :
    Settles s (s.failModules stack e) :=
  foldl (fun _ _ ↦ modifySource _ _ _) stack s

theorem fail (s : Store) (stack : List ModuleId) (e : ErrorId) (goal : EvaluationGoal) :
    Settles s (goal.fail s stack e).1 := by
  cases goal with
  | promise root p => exact (failModules s stack e).trans (.settle _ _ _)
  | force m => exact failModules s stack e

end Settles

end EcmaModules
