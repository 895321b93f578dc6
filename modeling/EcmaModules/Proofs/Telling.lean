import EcmaModules.Proofs.Execution
import EcmaModules.Proofs.Ascent

/-!
# Promises tell how evaluations ended

The promise that `evaluate` gives is settled when the module that the evaluation started at is over,
and in the way that the module ended. It is settled in many places: when a walk ends, well or not, when
a module that was waited for finishes, and for each of the modules that a rejection spreads to. Nobody
else can settle it.

A module may be over for a moment before its promise is settled. Such a module is late. Between two
steps of a machine there is at most one, the module that a walk started at that has nothing left on
its path.
-/

namespace EcmaModules

/-! ## Stores -/

/-- How the evaluation of the module ended, if it is over. -/
def SourceText.outcome? (r : SourceText) : Option Completion :=
  if r.status = .evaluated then some (r.evaluationError.elim (.ok ()) .error) else none

theorem SourceText.outcome?_of_ne {r : SourceText} (h : r.status ≠ .evaluated) :
    r.outcome? = none := if_neg h

theorem SourceText.outcome?_of_outline {r r' : SourceText} (h : r'.outline = r.outline) :
    r'.outcome? = r.outcome? := by
  have hstatus : r'.status.outline = r.status.outline := congrArg (·.status) h
  have herror : r'.evaluationError = r.evaluationError := (congrArg (·.evaluationError) h :)
  have hover : r'.status = .evaluated ↔ r.status = .evaluated := by
    rw [← Status.outline_eq_evaluated, hstatus, Status.outline_eq_evaluated]
  simp only [outcome?, herror, hover]

namespace Store

/-- The promises that are not those of evaluations. -/
def Unpledged (s : Store) : Fund where
  promises p := ∀ m, s.capability? m ≠ some p

/-- The promises of evaluations tell how they ended, but for modules that are late. -/
structure Tells (s : Store) (L : ModuleId → Prop) : Prop where
  made : ∀ x p, s.capability? x = some p → (s.promise? p).isSome
  own : ∀ x y p, s.capability? x = some p → s.capability? y = some p → x = y
  tells : ∀ x r p, s.source? x = some r → r.capability = some p → ¬L x →
    s.outcome? p = r.outcome?
  late : ∀ x p, L x → s.capability? x = some p → s.outcome? p = none

variable {s s' : Store} {L L' : ModuleId → Prop} {m x : ModuleId} {r : SourceText}
  {p : PromiseId} {c : Completion}

theorem capability?_eq_some : s.capability? x = some p ↔
    ∃ r, s.source? x = some r ∧ r.capability = some p := Option.bind_eq_some_iff

namespace Tells

/-- Modules that are not over may be counted as late or not. -/
theorem congr (h : s.Tells L) (hL : ∀ x r, s.source? x = some r → r.capability.isSome →
    (L' x ↔ L x) ∨ r.outcome? = none) : s.Tells L' := by
  refine ⟨h.made, h.own, fun x r p hr hp hnot ↦ ?_, fun x p hx hp ↦ ?_⟩
  · rcases hL x r hr (by simp [hp]) with hiff | hnone
    · exact h.tells x r p hr hp fun hL ↦ hnot (hiff.2 hL)
    · by_cases hx : L x
      · rw [hnone]
        exact h.late x p hx (capability?_eq_some.2 ⟨r, hr, hp⟩)
      · exact h.tells x r p hr hp hx
  · obtain ⟨r, hr, hrp⟩ := capability?_eq_some.1 hp
    rcases hL x r hr (by simp [hrp]) with hiff | hnone
    · exact h.late x p (hiff.1 hx) hp
    · by_cases hx : L x
      · exact h.late x p hx hp
      · rw [h.tells x r p hr hrp hx, hnone]

/-- A change that concerns late modules only, and no promise of an evaluation. -/
theorem change (h : s.Tells L) (hcapability : ∀ x, s'.capability? x = s.capability? x)
    (hkeeps : ∀ x p, s.capability? x = some p →
      (s'.promise? p).isSome ∧ s'.outcome? p = s.outcome? p)
    (hout : ∀ x r r', ¬L x → s.source? x = some r → r.capability.isSome →
      s'.source? x = some r' → r'.outcome? = r.outcome?) : s'.Tells L := by
  refine ⟨fun x p hp ↦ ?_, fun x y p hx hy ↦ ?_, fun x r' p hr' hp hnot ↦ ?_, fun x p hx hp ↦ ?_⟩
  · rw [hcapability] at hp
    exact (hkeeps x p hp).1
  · rw [hcapability] at hx hy
    exact h.own x y p hx hy
  · have hcap : s.capability? x = some p := by
      rw [← hcapability]
      exact capability?_eq_some.2 ⟨r', hr', hp⟩
    obtain ⟨r, hr, hrp⟩ := capability?_eq_some.1 hcap
    rw [(hkeeps x p hcap).2, h.tells x r p hr hrp hnot, hout x r r' hnot hr (by simp [hrp]) hr']
  · rw [hcapability] at hp
    rw [(hkeeps x p hp).2, h.late x p hx hp]

/-- Only one module changes, which is late. -/
theorem modifySource (h : s.Tells L) (hm : L m) {f : SourceText → SourceText}
    (hf : ∀ r, (f r).capability = r.capability) : (s.modifySource m f).Tells L := by
  refine h.change (fun x ↦ ?_) (fun x p hp ↦ ⟨h.made x p hp, rfl⟩) fun x r r' hx hr _ hr' ↦ ?_
  · unfold capability?
    rw [source?_modifySource]
    split
    · rcases s.source? x with _ | r
      · rfl
      · exact hf r
    · rfl
  · rw [source?_modifySource, if_neg fun hxm : x = m ↦ hx (hxm ▸ hm), hr] at hr'
    rw [Option.some.inj hr']

/-- The promise of a late module is settled. -/
theorem settle (h : s.Tells L) (hx : L x) (hr : s.source? x = some r) (hp : r.capability = some p)
    (hc : r.outcome? = some c) : (s.settle p c).Tells fun y ↦ L y ∧ y ≠ x := by
  have hcap : s.capability? x = some p := capability?_eq_some.2 ⟨r, hr, hp⟩
  have hmade := h.made x p hcap
  have hsource := source?_congr (s.modules_settle p c)
  have hcapability : ∀ y, (s.settle p c).capability? y = s.capability? y := fun y ↦ by
    rw [capability?, hsource]
    rfl
  have hout : ∀ y q, s.capability? y = some q → y ≠ x →
      (s.settle p c).outcome? q = s.outcome? q := fun y q hq hy ↦ by
    rw [outcome?_settle hmade, if_neg]
    rintro rfl
    exact hy (h.own y x q hq hcap)
  refine ⟨fun y q hq ↦ ?_, fun y z q hy hz ↦ ?_, fun y t q ht hq hnot ↦ ?_, fun y q hy hq ↦ ?_⟩
  · rw [hcapability] at hq
    have := h.made y q hq
    by_cases hrs : ∃ rs, s.promise? p = some (.pending rs)
    · obtain ⟨rs, hrs⟩ := hrs
      rw [promise?_settle hrs]
      split
      · rfl
      · exact this
    · rwa [settle_of_not_pending c (not_exists.1 hrs)]
  · rw [hcapability] at hy hz
    exact h.own y z q hy hz
  · rw [hsource] at ht
    by_cases hyx : y = x
    · subst hyx
      obtain rfl := Option.some.inj (hr.symm.trans ht)
      obtain rfl := Option.some.inj (hp.symm.trans hq)
      rw [outcome?_settle hmade, if_pos rfl, h.late y p hx hcap, hc]
      rfl
    · have hL : ¬L y := fun hL ↦ hnot ⟨hL, hyx⟩
      rw [hout y q (capability?_eq_some.2 ⟨t, ht, hq⟩) hyx, h.tells y t q ht hq hL]
  · rw [hcapability] at hq
    rw [hout y q hq hy.2, h.late y q hy.1 hq]

/-- The promise of a module, if there is one, is settled when the module is over. -/
theorem tell (h : s.Tells L) (hx : L x) (hover : ∀ r, s.source? x = some r → r.outcome? = some c)
    (hnone : s.capability? x = none → s' = s)
    (hsome : ∀ p, s.capability? x = some p → s' = s.settle p c) :
    s'.Tells fun y ↦ L y ∧ y ≠ x := by
  rcases hcap : s.capability? x with _ | p
  · rw [hnone hcap]
    refine h.congr fun y r hr hr' ↦ .inl (and_iff_left ?_)
    rintro rfl
    rw [capability?, hr] at hcap
    rw [show r.capability = none from hcap] at hr'
    contradiction
  · obtain ⟨r, hr, hp⟩ := capability?_eq_some.1 hcap
    rw [hsome p hcap]
    exact h.settle hx hr hp (hover r hr)

/-- A promise that tells already is not settled again. -/
theorem settle_eq (h : s.Tells L) (hx : ¬L x) (hr : s.source? x = some r)
    (hp : r.capability = some p) (ho : r.outcome? ≠ none) (c : Completion) : s.settle p c = s := by
  refine settle_of_not_pending c fun rs hrs ↦ ho ?_
  rw [← h.tells x r p hr hp hx, outcome?, hrs]
  rfl

/-- The module has finished. -/
theorem finishModule (h : s.Tells L) (hm : ¬L m)
    (he : ∀ r, s.source? m = some r → r.status ≠ .evaluated → r.evaluationError = none) :
    (s.finishModule m).Tells L := by
  have hover : ∀ r, ((s.settleAsync m).setStatus m .evaluated).source? m = some r →
      ∃ q, s.source? m = some q ∧ r.outcome? = some (q.evaluationError.elim (.ok ()) .error) := by
    intro r hr
    rw [setStatus, settleAsync, modifySource_modifySource, source?_modifySource, if_pos rfl] at hr
    obtain ⟨q, hq, rfl⟩ := Option.map_eq_some_iff.1 hr
    exact ⟨q, hq, by simp [SourceText.outcome?]⟩
  have hset : (s.settleAsync m).setStatus m .evaluated = s.modifySource m fun r ↦
      { r with asyncState := .settled, status := .evaluated } := by
    rw [setStatus, settleAsync, modifySource_modifySource]
  by_cases hs : s.status? m = some .evaluated
  · -- nothing changes that its promise would tell
    have hsame : ((s.settleAsync m).setStatus m .evaluated).Tells L := by
      rw [hset]
      refine h.change (fun x ↦ ?_) (fun x p hp ↦ ⟨h.made x p hp, rfl⟩) fun x r r' hx hr _ hr' ↦ ?_
      · rw [capability?, source?_modifySource]
        split <;> rcases hx : s.source? x with _ | r <;> simp [capability?, hx]
      · rw [source?_modifySource, hr] at hr'
        split at hr'
        · next hxm =>
          obtain rfl := Option.some.inj hr'
          rw [status?, ← hxm, hr] at hs
          simp [SourceText.outcome?, show r.status = .evaluated from Option.some.inj hs]
        · rw [Option.some.inj hr']
    unfold Store.finishModule Store.resolveCapability
    split
    · next p hp =>
      obtain ⟨r, hr, hrp⟩ := capability?_eq_some.1 hp
      obtain ⟨q, -, ho⟩ := hover r hr
      rw [Store.resolve, hsame.settle_eq hm hr hrp (by simp [ho])]
      exact hsame
    · exact hsame
  · have hlate : ((s.settleAsync m).setStatus m .evaluated).Tells fun x ↦ L x ∨ x = m := by
      rw [hset]
      refine Tells.modifySource (h.congr fun x r hr _ ↦ ?_) (.inr rfl) fun _ ↦ rfl
      by_cases hx : x = m
      · refine .inr (SourceText.outcome?_of_ne fun hover ↦ hs ?_)
        rw [← hx, status?, hr, Option.map_some, hover]
      · exact .inl (or_iff_left hx)
    have hwell : ∀ r, ((s.settleAsync m).setStatus m .evaluated).source? m = some r →
        r.outcome? = some (.ok ()) := fun r hr ↦ by
      obtain ⟨q, hq, ho⟩ := hover r hr
      rw [ho, he q hq fun hover ↦ hs (by rw [status?, hq, Option.map_some, hover])]
      rfl
    have hend : (s.finishModule m).Tells fun x ↦ (L x ∨ x = m) ∧ x ≠ m := hlate.tell (.inr rfl) hwell
      (fun hnone ↦ by rw [Store.finishModule, resolveCapability, hnone])
      (fun p hp ↦ by rw [Store.finishModule, resolveCapability, hp]; rfl)
    exact hend.congr fun x r _ _ ↦ .inl ⟨fun hx ↦ ⟨.inl hx, fun hxm ↦ hm (hxm ▸ hx)⟩,
      fun hx ↦ hx.1.resolve_right hx.2⟩

/-- A rejection spreads. The modules that it has come to before are late. -/
theorem rejectFrom {e : ErrorId} (depth : Nat) (h : s.Tells L)
    (hL : ∀ x r, L x → s.source? x = some r → r.status = .evaluated ∧ r.evaluationError = some e)
    (m : ModuleId) : (s.rejectFrom depth m e).Tells L := by
  induction depth generalizing s L m with
  | zero => exact h
  | succ depth ih =>
    have hfails := fails_rejectFrom (depth + 1) s m e
    unfold Store.rejectFrom at hfails ⊢
    split
    · exact h
    next hs =>
      -- the module is late until those who wait for it have failed
      have hmarked : (s.markFailed m e).Tells fun x ↦ L x ∨ x = m := by
        refine Tells.modifySource (h.congr fun x r hr _ ↦ ?_) (.inr rfl) fun _ ↦ rfl
        by_cases hx : x = m
        · refine .inr (SourceText.outcome?_of_ne fun hover ↦ hs ?_)
          rw [← hx, status?, hr, Option.map_some, hover]
        · exact .inl (or_iff_left hx)
      have hfailed : ∀ x r, L x ∨ x = m → (s.markFailed m e).source? x = some r →
          r.status = .evaluated ∧ r.evaluationError = some e := by
        intro x r hx hr
        rw [markFailed, source?_modifySource] at hr
        split at hr
        · obtain ⟨q, -, rfl⟩ := Option.map_eq_some_iff.1 hr
          exact ⟨rfl, rfl⟩
        · next hne => exact hL x r (hx.resolve_right hne) hr
      have hfold : ∀ (ms : List ModuleId) (s : Store), s.Tells (fun x ↦ L x ∨ x = m) →
          (∀ x r, L x ∨ x = m → s.source? x = some r →
            r.status = .evaluated ∧ r.evaluationError = some e) →
          (ms.foldl (fun s m ↦ s.rejectFrom depth m e) s).Tells (fun x ↦ L x ∨ x = m) ∧
          ∀ x r, L x ∨ x = m → (ms.foldl (fun s m ↦ s.rejectFrom depth m e) s).source? x = some r →
            r.status = .evaluated ∧ r.evaluationError = some e := by
        intro ms
        induction ms with
        | nil => exact fun s h hL ↦ ⟨h, hL⟩
        | cons d ms ihms =>
          refine fun s h hL ↦ ihms _ (ih h hL d) fun x r' hx hr' ↦ ?_
          rcases fails_rejectFrom depth s d e x with heq | ⟨r, -, -, heq⟩
          · exact hL x r' hx (heq ▸ hr')
          · obtain rfl := Option.some.inj (heq.symm.trans hr')
            exact ⟨rfl, rfl⟩
      obtain ⟨htells, hall⟩ := hfold _ _ hmarked hfailed
      rw [if_neg hs] at hfails
      have hover : ∀ r, Store.source? _ m = some r → r.outcome? = some (.error e) := fun r hr ↦ by
        obtain ⟨hover, herror⟩ := hall m r (.inr rfl) hr
        simp [SourceText.outcome?, hover, herror]
      have hend : (Store.rejectCapability _ m e).Tells fun x ↦ (L x ∨ x = m) ∧ x ≠ m :=
        htells.tell (.inr rfl) hover (fun hnone ↦ by rw [rejectCapability, hnone])
          fun p hp ↦ by rw [rejectCapability, hp]; rfl
      refine hend.congr fun x r hr _ ↦ .inl ⟨fun hx ↦ ⟨.inl hx, ?_⟩, fun hx ↦
        hx.1.resolve_right hx.2⟩
      rintro rfl
      have hsome := hfails.isSome x
      rw [hr] at hsome
      obtain ⟨q, hq⟩ := Option.isSome_iff_exists.1 hsome.symm
      exact hs (by rw [status?, hq, Option.map_some, (hL x q hx hq).1])

end Tells

/-- The module settles, without an error. -/
def SettlesWell (s : Store) (x : ModuleId) : Prop :=
  ∃ r, s.source? x = some r ∧ r.status.isSettling = true ∧ r.evaluationError = none

/-- The module whose promise the walk will tell has nothing left on the path. -/
def LateIn (T : List Tour) (x : ModuleId) : Prop :=
  ∃ τ ∈ T, ∃ p, τ.goal = .promise x p ∧ τ.path = []

/-- Promises tell how evaluations ended, and a module that has a promise settles or is the one that a
walk started at. -/
structure Serves (s : Store) (T : List Tour) : Prop where
  tells : s.Tells (LateIn T)
  goals : ∀ τ ∈ T, ∀ x p, τ.goal = .promise x p → s.capability? x = some p ∧
    (τ.path.getLast? = some x ∨ τ.path = [] ∧ s.SettlesWell x)
  seats : ∀ x r p, s.source? x = some r → r.capability = some p → r.status.isSettling = true ∨
    ∃ τ ∈ T, τ.goal = .promise x p ∧ τ.path.getLast? = some x

/-- The promises of evaluations are as before. -/
def KeepsPledges (s s' : Store) : Prop :=
  ∀ x p, s.capability? x = some p → (s'.promise? p).isSome ∧ s'.outcome? p = s.outcome? p

theorem Deals.keepsPledges {L : ModuleId → Prop} (h : s.Deals s.Unpledged s') (htells : s.Tells L) :
    s.KeepsPledges s' :=
  fun x p hp ↦ ⟨h.grows p (htells.made x p hp), h.keeps p fun hnot ↦ hnot x hp⟩

theorem Tells.keepsPledges {L : ModuleId → Prop} (h : s.Tells L) (hs : s'.promises = s.promises) :
    s.KeepsPledges s' := fun x p hp ↦ by
  have heq : s'.promise? p = s.promise? p := by rw [promise?, promise?, hs]
  exact ⟨heq ▸ h.made x p hp, outcome?_eq heq⟩

namespace Serves

variable {T : List Tour} {e : ErrorId} {root : ModuleId} {step : EvaluationStep}

/-- A walk that was not started by a call of evaluate tells no promise. -/
theorem cons_force {τ : Tour} (hτ : ∀ x p, τ.goal ≠ .promise x p) :
    s.Serves (τ :: T) ↔ s.Serves T := by
  have hlate : LateIn (τ :: T) = LateIn T := funext fun x ↦ propext <| by
    simp only [LateIn, List.mem_cons, exists_eq_or_imp, hτ x, false_and, exists_false, false_or]
  refine ⟨fun h ↦ ⟨hlate ▸ h.tells, fun τ' hτ' ↦ h.goals τ' (List.mem_cons_of_mem _ hτ'),
    fun x r p hr hp ↦ (h.seats x r p hr hp).imp id ?_⟩,
    fun h ↦ ⟨hlate ▸ h.tells, ?_, fun x r p hr hp ↦ (h.seats x r p hr hp).imp id ?_⟩⟩
  · rintro ⟨τ', hτ', hg, hlast⟩
    rcases List.mem_cons.1 hτ' with rfl | hτ'
    · exact absurd hg (hτ x p)
    · exact ⟨τ', hτ', hg, hlast⟩
  · exact List.forall_mem_cons.2 ⟨fun x p hg ↦ absurd hg (hτ x p), h.goals⟩
  · rintro ⟨τ', hτ', hg, hlast⟩
    exact ⟨τ', List.mem_cons_of_mem _ hτ', hg, hlast⟩

/-- A change by which no walk goes on that tells a promise. The modules that those walks started at
are not over. -/
theorem keep (h : s.Serves T) (htreads : s.Treads s') (hkeeps : s.KeepsPledges s')
    (hT : ∀ τ ∈ T, ∀ x, τ.path.getLast? = some x → ∀ r, s.source? x = some r →
      r.status ≠ .evaluated ∧ ∀ r', s'.source? x = some r' → r'.status ≠ .evaluated) :
    s'.Serves T := by
  refine ⟨?_, fun τ hτ x p hg ↦ ?_, fun x r' p hr' hp ↦ ?_⟩
  · refine h.tells.change htreads.capability? hkeeps fun x r r' _ hr hsome hr' ↦ ?_
    obtain ⟨q, hq, hrel⟩ := Each.after htreads hr
    obtain rfl := Option.some.inj (hr'.symm.trans hq)
    obtain ⟨p, hp⟩ := Option.isSome_iff_exists.1 hsome
    rcases h.seats x r p hr hp with hs | ⟨τ, hτ, -, hlast⟩
    · simp only [SourceText.outcome?, hrel.settling hs, hrel.evaluationError]
    · obtain ⟨hne, hne'⟩ := hT τ hτ x hlast r hr
      rw [SourceText.outcome?_of_ne hne, SourceText.outcome?_of_ne (hne' r' hr')]
  · obtain ⟨hcap, hplace⟩ := h.goals τ hτ x p hg
    refine ⟨(htreads.capability? x).trans hcap, hplace.imp id fun ⟨hnil, r, hr, hs, he⟩ ↦ ?_⟩
    obtain ⟨r', hr', hrel⟩ := Each.after htreads hr
    exact ⟨hnil, r', hr', (hrel.settling hs).symm ▸ hs, hrel.evaluationError.trans he⟩
  · obtain ⟨r, hr, hrel⟩ := Each.before htreads hr'
    exact (h.seats x r p hr (hrel.capability.symm.trans hp)).imp
      (fun hs ↦ (hrel.settling hs).symm ▸ hs) id

/-- A change that is nothing to evaluation. -/
theorem of_outline (h : s.Serves T) (ho : s'.outline = s.outline) (hkeeps : s.KeepsPledges s') :
    s'.Serves T := by
  have heach := Each.of_outline ho
  have hcapability := capability?_of_each (heach.mono fun _ _ hr ↦ (congrArg (·.capability) hr :))
  have hsettling : ∀ {r r' : SourceText}, r'.outline = r.outline →
      r'.status.isSettling = r.status.isSettling := fun {r r'} hr ↦ by
    rw [← Status.isSettling_outline, ← SourceText.outline_status, hr, SourceText.outline_status,
      Status.isSettling_outline]
  refine ⟨?_, fun τ hτ x p hg ↦ ?_, fun x r' p hr' hp ↦ ?_⟩
  · refine h.tells.change hcapability hkeeps fun x r r' _ hr _ hr' ↦ ?_
    obtain ⟨q, hq, hrel⟩ := heach.after hr
    obtain rfl := Option.some.inj (hr'.symm.trans hq)
    exact SourceText.outcome?_of_outline hrel
  · obtain ⟨hcap, hplace⟩ := h.goals τ hτ x p hg
    refine ⟨(hcapability x).trans hcap, hplace.imp id fun ⟨hnil, r, hr, hs, he⟩ ↦ ?_⟩
    obtain ⟨r', hr', hrel⟩ := heach.after hr
    exact ⟨hnil, r', hr', (hsettling hrel).trans hs,
      (congrArg (·.evaluationError) hrel :).trans he⟩
  · obtain ⟨r, hr, hrel⟩ := heach.before hr'
    exact (h.seats x r p hr ((congrArg (·.capability) hrel :).symm.trans hp)).imp
      (fun hs ↦ (hsettling hrel).trans hs) id

end Serves

/-! ### Walks that end -/

theorem source?_failModules (s : Store) (stack : List ModuleId) (e : ErrorId) (x : ModuleId) :
    (x ∉ stack → (s.failModules stack e).source? x = s.source? x) ∧
      ∀ r', (s.failModules stack e).source? x = some r' → x ∈ stack →
        r'.outcome? = some (.error e) := by
  refine ⟨fun hx ↦ source?_foldl_of_not_mem (fun r ↦ r.fail e) hx s, fun r' hr' hx ↦ ?_⟩
  suffices hall : ∀ (stack : List ModuleId) (s : Store) r',
      (s.failModules stack e).source? x = some r' → x ∈ stack →
        r'.status = .evaluated ∧ r'.evaluationError = some e by
    obtain ⟨hs, he⟩ := hall stack s r' hr' hx
    simp [SourceText.outcome?, hs, he]
  intro stack
  induction stack with
  | nil => exact fun _ _ _ hx ↦ absurd hx List.not_mem_nil
  | cons m stack ih =>
    intro s r' hr' hx
    by_cases hmem : x ∈ stack
    · exact ih _ r' hr' hmem
    · obtain rfl := (List.mem_cons.1 hx).resolve_right hmem
      have hself : (s.failModules (x :: stack) e).source? x =
          (s.modifySource x fun r ↦ r.fail e).source? x :=
        source?_foldl_of_not_mem (fun r ↦ r.fail e) hmem _
      rw [hself, source?_modifySource, if_pos rfl] at hr'
      obtain ⟨r, -, rfl⟩ := Option.map_eq_some_iff.1 hr'
      exact ⟨rfl, rfl⟩

theorem capability?_failModules (s : Store) (stack : List ModuleId) (e : ErrorId) (x : ModuleId) :
    (s.failModules stack e).capability? x = s.capability? x := by
  refine capability?_of_each (Each.foldl (R := fun r r' ↦ r'.capability = r.capability)
    (fun _ ↦ rfl) (fun _ _ _ h h' ↦ h'.trans h) (fun s m ↦ ?_) stack s) x
  exact Each.modifySource (R := fun r r' ↦ r'.capability = r.capability) (fun _ ↦ rfl) s m
    fun _ _ ↦ rfl

theorem duties_failModules (s : Store) (stack : List ModuleId) (e : ErrorId) :
    (s.failModules stack e).duties = s.duties :=
  duties_foldl (f := fun s m ↦ s.modifySource m fun r ↦ r.fail e) (fun _ _ ↦ rfl) stack s

namespace Serves

variable {T : List Tour} {e : ErrorId} {root : ModuleId} {step : EvaluationStep}

/-- A walk fails that none of the modules with a promise was in. -/
theorem failModules (h : s.Serves T) {left : List ModuleId}
    (hleft : ∀ x ∈ left, s.capability? x = none) (e : ErrorId) :
    (s.failModules left e).Serves T := by
  have hnot : ∀ {x p}, s.capability? x = some p → x ∉ left := fun hp hx ↦ by
    simp [hleft _ hx] at hp
  refine ⟨?_, fun τ hτ x p hg ↦ ?_, fun x r' p hr' hp ↦ ?_⟩
  · have hpromises : (s.failModules left e).promises = s.promises :=
      congrArg Prod.fst (s.duties_failModules left e)
    refine h.tells.change (s.capability?_failModules left e) (h.tells.keepsPledges hpromises)
      fun x r r' _ hr hsome hr' ↦ ?_
    obtain ⟨p, hp⟩ := Option.isSome_iff_exists.1 hsome
    rw [(s.source?_failModules left e x).1 (hnot (capability?_eq_some.2 ⟨r, hr, hp⟩)), hr] at hr'
    rw [Option.some.inj hr']
  · obtain ⟨hcap, hplace⟩ := h.goals τ hτ x p hg
    refine ⟨(s.capability?_failModules left e x).trans hcap, hplace.imp id ?_⟩
    rintro ⟨hnil, r, hr, hr'⟩
    exact ⟨hnil, r, ((s.source?_failModules left e x).1 (hnot hcap)).trans hr, hr'⟩
  · have hcap : s.capability? x = some p := by
      rw [← s.capability?_failModules left e]
      exact capability?_eq_some.2 ⟨r', hr', hp⟩
    rw [(s.source?_failModules left e x).1 (hnot hcap)] at hr'
    exact h.seats x r' p hr' hp

/-- What a step of a walk leads to that reading from a namespace started. -/
theorem next_force (h : s.Serves T) (m : ModuleId)
    (hleft : ∀ e left, step = .failed e left → ∀ x ∈ left, s.capability? x = none) :
    (step.next s (.force m)).1.Serves ((step.next s (.force m)).2.tours ++ T) := by
  have hgo : ∀ {st w}, s.Serves (⟨.force m, st, w⟩ :: T) := (cons_force fun _ _ ↦ EvaluationGoal.noConfusion).2 h
  cases step with
  | done =>
    refine h.of_outline (outline_finish s (.force m)) (h.tells.keepsPledges ?_)
    simp only [EvaluationStep.next, EvaluationGoal.finish, finishForced]
    split <;> rfl
  | failed e left => exact h.failModules (hleft e left rfl) e
  | go w => exact hgo
  | synthetic d w => exact hgo
  | execute d capability w => exact hgo

end Serves

/-! ### The promise of a walk -/

/-- Only one module may be late, and it is the only one with a promise that may not settle. -/
structure Expects (s : Store) (root : ModuleId) (p : PromiseId) : Prop where
  tells : s.Tells (· = root)
  capability : s.capability? root = some p
  seats : ∀ x r, s.source? x = some r → r.capability.isSome →
    r.status.isSettling = true ∨ x = root

namespace Expects

variable {root : ModuleId} {e : ErrorId}

/-- The walk goes on. -/
theorem on (h : s.Expects root p) {τ : Tour} (hτ : τ.goal = .promise root p)
    (hpath : τ.path = [] ∧ s.SettlesWell root ∨
      τ.path.getLast? = some root ∧ ∀ r, s.source? root = some r → r.outcome? = none) :
    s.Serves [τ] := by
  have hlate : ∀ x, LateIn [τ] x ↔ x = root ∧ τ.path = [] := by
    refine fun x ↦ ⟨?_, ?_⟩
    · rintro ⟨τ', hτ', q, hg, hnil⟩
      obtain rfl := List.mem_singleton.1 hτ'
      exact ⟨(EvaluationGoal.promise.inj (hτ.symm.trans hg)).1.symm, hnil⟩
    · rintro ⟨rfl, hnil⟩
      exact ⟨τ, List.mem_cons_self, p, hτ, hnil⟩
  refine ⟨h.tells.congr fun x r hr _ ↦ ?_, ?_, fun x t q ht hq ↦ ?_⟩
  · rcases hpath with ⟨hnil, -⟩ | ⟨-, hnone⟩
    · exact .inl (by rw [hlate, and_iff_left hnil])
    · by_cases hx : x = root
      · exact .inr (hnone r (hx ▸ hr))
      · exact .inl (by rw [hlate]; exact and_iff_left_of_imp fun h ↦ absurd h hx)
  · rintro τ' hτ' x q hg
    obtain rfl := List.mem_singleton.1 hτ'
    obtain ⟨rfl, rfl⟩ := EvaluationGoal.promise.inj (hτ.symm.trans hg)
    exact ⟨h.capability, hpath.symm.imp And.left id⟩
  · rcases h.seats x t ht (by simp [hq]) with hs | rfl
    · exact .inl hs
    · have hpq : some p = some q := by
        rw [← hq, ← h.capability, capability?, ht]
        rfl
      rcases hpath with ⟨-, r, hr, hs, -⟩ | ⟨hlast, -⟩
      · exact .inl (Option.some.inj (hr.symm.trans ht) ▸ hs)
      · exact .inr ⟨τ, List.mem_cons_self, Option.some.inj hpq ▸ hτ, hlast⟩

theorem lateIn_nil (x : ModuleId) : ¬LateIn [] x := fun ⟨_, h, _⟩ ↦ absurd h List.not_mem_nil

/-- The walk ends well. -/
theorem done (h : s.Expects root p) (hwell : s.SettlesWell root) :
    (s.finishEvaluation root p).Serves [] := by
  obtain ⟨r, hr, hs, he⟩ := hwell
  have hstatus : s.status? root = some r.status := by
    rw [status?, hr]
    rfl
  have hmodules : (s.finishEvaluation root p).modules = s.modules := by
    unfold finishEvaluation
    split
    · exact modules_settle _ _ _
    · rfl
  refine ⟨?_, by simp, fun x t q ht hq ↦ .inl ?_⟩
  · unfold finishEvaluation
    rw [hstatus]
    split
    · next hover =>
      have hp : r.capability = some p := by
        rw [← h.capability, capability?, hr]
        rfl
      have hout : r.outcome? = some (.ok ()) := by
        simp [SourceText.outcome?, Option.some.inj hover, he]
      exact (h.tells.settle rfl hr hp hout).congr fun x _ _ _ ↦
        .inl ⟨fun hx ↦ absurd hx (lateIn_nil x), fun hx ↦ absurd hx.1 hx.2⟩
    · next hnot =>
      refine h.tells.congr fun x t ht _ ↦ ?_
      by_cases hx : x = root
      · obtain rfl := Option.some.inj (hr.symm.trans (hx ▸ ht))
        exact .inr (SourceText.outcome?_of_ne fun h ↦ hnot (congrArg some h))
      · exact .inl ⟨fun h ↦ absurd h (lateIn_nil x), fun h ↦ absurd h hx⟩
  · rw [source?_congr hmodules] at ht
    rcases h.seats x t ht (by simp [hq]) with hs' | rfl
    · exact hs'
    · exact Option.some.inj (hr.symm.trans ht) ▸ hs

/-- The walk has failed. Of the modules that fail with it only the one that it started at has a
promise. -/
theorem failed (h : s.Expects root p) {left : List ModuleId}
    (hleft : ∀ x ∈ left, (s.capability? x).isSome → x = root)
    (hroot : root ∈ left ∨ ∀ r, s.source? root = some r → r.outcome? = some (.error e)) :
    ((s.failModules left e).reject p e).Serves [] := by
  have hsource := s.source?_failModules left e
  have hfails : (s.failModules left e).Tells (· = root) := by
    have hpromises : (s.failModules left e).promises = s.promises :=
      congrArg Prod.fst (s.duties_failModules left e)
    refine h.tells.change (s.capability?_failModules left e) (h.tells.keepsPledges hpromises)
      fun x r r' hx hr hsome hr' ↦ ?_
    have hmem : x ∉ left := fun hmem ↦ hx (hleft x hmem (by rw [capability?, hr]; exact hsome))
    rw [(hsource x).1 hmem, hr] at hr'
    rw [Option.some.inj hr']
  have hover : ∀ r', (s.failModules left e).source? root = some r' →
      r'.outcome? = some (.error e) := fun r' hr' ↦ by
    by_cases hmem : root ∈ left
    · exact (hsource root).2 r' hr' hmem
    · rw [(hsource root).1 hmem] at hr'
      exact hroot.resolve_left hmem r' hr'
  have hend : ((s.failModules left e).reject p e).Tells fun x ↦ x = root ∧ x ≠ root := by
    have hcap := (s.capability?_failModules left e root).trans h.capability
    refine hfails.tell rfl hover (fun hnone ↦ absurd (hcap.symm.trans hnone) (by simp)) fun q hq ↦ ?_
    rw [← Option.some.inj (hcap.symm.trans hq)]
    rfl
  refine ⟨?_, by simp, fun x t q ht hq ↦ .inl ?_⟩
  · exact hend.congr fun x _ _ _ ↦
      .inl ⟨fun h ↦ absurd h (lateIn_nil x), fun h ↦ absurd h.1 h.2⟩
  · rw [reject, source?_congr (modules_settle _ _ _)] at ht
    have hsettling : t.outcome? ≠ none → t.status.isSettling = true := fun hne ↦ by
      by_cases hs : t.status = .evaluated
      · rw [hs]
        rfl
      · exact absurd (SourceText.outcome?_of_ne hs) hne
    by_cases hmem : x ∈ left
    · exact hsettling (by simp [(hsource x).2 t ht hmem])
    · by_cases hx : x = root
      · exact hsettling (by simp [hover t (hx ▸ ht)])
      · rw [(hsource x).1 hmem] at ht
        exact (h.seats x t ht (by simp [hq])).resolve_right hx

/-- What a step of a walk leads to that tells a promise. -/
theorem next {step : EvaluationStep} (h : s.Expects root p)
    (hfailed : ∀ e left, step = .failed e left →
      (∀ x ∈ left, (s.capability? x).isSome → x = root) ∧
        (root ∈ left ∨ ∀ r, s.source? root = some r → r.outcome? = some (.error e)))
    (hgo : (∀ e left, step ≠ .failed e left) → step.path = [] ∧ s.SettlesWell root ∨
      step.path.getLast? = some root ∧ ∀ r, s.source? root = some r → r.outcome? = none) :
    (step.next s (.promise root p)).1.Serves (step.next s (.promise root p)).2.tours := by
  cases step with
  | done => exact h.done ((hgo fun _ _ ↦ nofun).resolve_right fun h ↦ nomatch h.1).2
  | failed e left => exact h.failed (hfailed e left rfl).1 (hfailed e left rfl).2
  | go w => exact h.on rfl (hgo fun _ _ ↦ nofun)
  | synthetic d w => exact h.on rfl (hgo fun _ _ ↦ nofun)
  | execute d capability w => exact h.on rfl (hgo fun _ _ ↦ nofun)

end Expects

end Store

end EcmaModules
