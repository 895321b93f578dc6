import EcmaModules.Proofs.Charting

/-!
# Loaded graphs are closed

A module that is not new has a module for each request that its text makes, and that one is not new
either. So whatever linking, evaluating and looking up names come to, starting at such a module, is
there.

The host may answer whenever and whatever it likes, as long as it answers with modules. The only
other condition is on the caller: it does not evaluate a new module.

A step of a loading operation keeps its count (`Store.Charts`). A step of anything else changes
neither what is being loaded nor which modules are new. For that it matters that linking and
evaluating never meet a new module, which in turn follows from what was loaded before. So both are
shown together, step by step (`Machine.Charted`).
-/

namespace EcmaModules

/-! ## Walks that load -/

/-- The walk that a task is, if it loads. -/
def Task.loadWalks : Task → List LoadWalk
  | .loading w => [w]
  | _ => []

/-- The walk that waits in a frame, if it loads. -/
def Frame.loadWalks : Frame → List LoadWalk
  | .asked w => [w]
  | _ => []

/-- The walks that load in what comes next. -/
def Next.loadWalks : Next → List LoadWalk
  | .goto t => t.loadWalks
  | .call t f => t.loadWalks ++ f.loadWalks
  | .give _ => []

/-- The walks that load. -/
def Machine.loadWalks (M : Machine) : List LoadWalk :=
  M.current.loadWalks ++ M.frames.flatMap Frame.loadWalks

/-- The walk that a step leaves. -/
def LoadStep.walks : LoadStep → List LoadWalk
  | .done => []
  | .go w | .ask _ w => [w]

namespace Store

variable {s s' : Store} {W : List LoadWalk} {w : LoadWalk} {m : ModuleId}

theorem not_descends_of_visited {l : LoadingId} {r : Loading} (hr : s.loading? l = some r)
    (hm : m ∈ r.visited) : s.descends l m = false := by
  simp [descends, hr, hm]

/-- A walk that loads goes on. -/
theorem Charts.advance (h : s.Charts (w :: W) []) :
    (w.advance s).1.Charts ((w.advance s).2.walks ++ W) [] := by
  obtain ⟨l, frames⟩ := w
  unfold LoadWalk.advance
  cases hl : s.isLoading l with
  | false =>
    exact h.forget (.inr hl)
  | true =>
    simp only [Bool.not_true, Bool.false_eq_true, if_false]
    rcases frames with _ | ⟨⟨m, _ | ⟨q, qs⟩⟩, rest⟩
    · exact h.forget (.inl rfl)
    · obtain ⟨r, hr, hlr⟩ : ∃ r, s.loading? l = some r ∧ r.isLoading = true := by
        simpa [isLoading, Option.any_eq_true] using hl
      have hc := h.charted l r hr hlr
      rw [walksOf_cons_self rfl] at hc
      have hvisited : m ∈ r.visited := hc.frames _ List.mem_cons_self _ List.mem_cons_self
      exact h.finish.descend hl (not_descends_of_visited hr hvisited)
    · dsimp only
      cases hd : s.imported? m q with
      | none => exact h.ask
      | some d =>
        have hfollow := h.follow hd
        cases hgo : s.descends l d with
        | true =>
          simp only [hgo, if_true]
          exact (hfollow.visit hgo).join
        | false =>
          simp only [hgo, Bool.false_eq_true, if_false]
          exact hfollow.descend hl hgo

/-! ## Answers of the host -/

theorem loading?_failLoading (s : Store) (l : LoadingId) (e : ErrorId) (x : LoadingId) :
    (s.failLoading l e).loading? x =
      if x = l then (s.loading? x).map fun r ↦ { r with isLoading := false } else s.loading? x := by
  unfold failLoading
  split
  · next hnone =>
    split
    · next hx => rw [hx, hnone, Option.map_none]
    · rfl
  · exact (loading?_congr (loadings_settle _ _ _) x).trans (s.loading?_modifyLoading l _ x)

theorem modules_failLoading (s : Store) (l : LoadingId) (e : ErrorId) :
    (s.failLoading l e).modules = s.modules := by
  unfold failLoading
  split
  · rfl
  · exact modules_settle _ _ _

/-- An operation is over when an answer has failed, if it was not before. -/
theorem Charts.fail {l : LoadingId} {f : Loading → Loading} (h : s.Charts W [])
    (hm : s'.modules = s.modules)
    (hload : ∀ x, s'.loading? x = if x = l then (s.loading? x).map f else s.loading? x)
    (hf : ∀ r, (f r).outstanding ⊆ r.outstanding) (e : ErrorId) :
    (if !s'.isLoading l then s' else s'.failLoading l e).Charts W [] := by
  cases hl : s'.isLoading l with
  | false =>
    refine h.close (l := l) hm (fun x hx ↦ (hload x).trans (if_neg hx)) (fun r' hr' ↦ ⟨?_, ?_⟩)
      fun x hx ↦ ?_
    · simpa [isLoading, show s'.loading? l = some r' from hr'] using hl
    · replace hr' := ((hload l).trans (if_pos rfl)).symm.trans hr'
      obtain ⟨r, hr, rfl⟩ := Option.map_eq_some_iff.1 hr'
      exact ⟨r, hr, hf r⟩
    · refine (congrArg Option.isSome (hload x)).trans ?_
      split
      · exact Option.isSome_map.trans hx
      · exact hx
  | true =>
    have hfail : ∀ x, (s'.failLoading l e).loading? x =
        if x = l then (s.loading? x).map fun r ↦ { f r with isLoading := false }
        else s.loading? x := fun x ↦ by
      rw [loading?_failLoading, hload]
      split
      · rw [Option.map_map]
        rfl
      · rfl
    refine h.close (l := l) ((modules_failLoading s' l e).trans hm)
      (fun x hx ↦ (hfail x).trans (if_neg hx)) (fun r' hr' ↦ ?_) fun x hx ↦ ?_
    · replace hr' := ((hfail l).trans (if_pos rfl)).symm.trans hr'
      obtain ⟨r, hr, rfl⟩ := Option.map_eq_some_iff.1 hr'
      exact ⟨rfl, r, hr, hf r⟩
    · refine (congrArg Option.isSome (hfail x)).trans ?_
      split
      · exact Option.isSome_map.trans hx
      · exact hx

theorem loading?_takeOutstanding (call : LoadCall) :
    ∃ f : Loading → Loading, (∀ r, (f r).outstanding ⊆ r.outstanding) ∧
      ∀ (s : Store) l, (s.takeOutstanding call).loading? l =
        if l = call.loading then (s.loading? l).map f else s.loading? l :=
  ⟨_, fun _ _ ↦ List.mem_of_mem_eraseP, fun s ↦ s.loading?_modifyLoading call.loading _⟩

/-! ### What is recorded -/

theorem loadings_recordLoaded (s : Store) (call : LoadCall) (m : ModuleId) :
    (s.recordLoaded call m).2.loadings = s.loadings := by
  unfold recordLoaded
  split
  · split <;> rfl
  · rfl

theorem modules_recordLoaded {call : LoadCall} {e : ErrorId}
    (h : (s.recordLoaded call m).1 = .error e) : (s.recordLoaded call m).2.modules = s.modules := by
  unfold recordLoaded at h ⊢
  split
  · split <;> rfl
  · next hnone =>
    rw [hnone] at h
    exact nomatch h

theorem eq_of_recordLoaded {call : LoadCall} {d : ModuleId}
    (h : (s.recordLoaded call m).1 = .ok d) : d = m := by
  unfold recordLoaded at h
  split at h
  · split at h
    · exact (Except.ok.inj h).symm
    · exact nomatch h
  · exact (Except.ok.inj h).symm

/-- A module may as well be recorded while the operation still waits for the request. -/
theorem recordLoaded_takeOutstanding (s : Store) (call : LoadCall) (m : ModuleId) :
    (s.takeOutstanding call).recordLoaded call m =
      ((s.recordLoaded call m).1, (s.recordLoaded call m).2.takeOutstanding call) := by
  have himported : (s.takeOutstanding call).imported? call.referrer call.request =
      s.imported? call.referrer call.request := rfl
  unfold recordLoaded
  rw [himported]
  split
  · split <;> rfl
  · rfl

/-- The host answers a request. -/
theorem Charts.answer {a : LoadAnswer} (h : s.Charts W [])
    (ha : ∀ m, a.outcome = .ok m → (s.module? m).isSome) :
    (s.takeAnswer a).1.Charts ((s.takeAnswer a).2.toList ++ W) [] := by
  have hfail : ∀ {e : ErrorId} {s' : Store} {f : Loading → Loading},
      s.checkAnswer a = (.error e, s') → s'.modules = s.modules →
      (∀ l, s'.loading? l = if l = a.call.loading then (s.loading? l).map f else s.loading? l) →
      (∀ r, (f r).outstanding ⊆ r.outstanding) →
      (s.takeAnswer a).1.Charts ((s.takeAnswer a).2.toList ++ W) [] := by
    intro e s' f hx hm hload hf
    have hover := h.fail hm hload hf e
    simp only [takeAnswer, hx]
    cases hl : s'.isLoading a.call.loading <;> simpa [hl] using hover
  cases hout : s.isOutstanding a.call with
  | false =>
    obtain ⟨e, message, hcheck⟩ : ∃ e message,
        s.checkAnswer a = (.error e, (s.throw .typeError message).2) :=
      ⟨_, _, by rw [checkAnswer, if_neg (by simp [hout])]⟩
    refine hfail (f := id) hcheck rfl (fun l ↦ ?_) fun r ↦ List.Subset.refl _
    simp only [Option.map_id, id, ite_self]
    rfl
  | true =>
    obtain ⟨f, hf, htaken⟩ := loading?_takeOutstanding a.call
    cases houtcome : a.outcome with
    | error e =>
      have hcheck : s.checkAnswer a = (.error e, s.takeOutstanding a.call) := by
        simp only [checkAnswer, hout, houtcome, if_true]
      exact hfail hcheck rfl (htaken s) hf
    | ok m =>
      have hcheck : s.checkAnswer a = ((s.recordLoaded a.call m).1,
          (s.recordLoaded a.call m).2.takeOutstanding a.call) := by
        simp only [checkAnswer, hout, houtcome, if_true, recordLoaded_takeOutstanding]
      have hloadings := s.loadings_recordLoaded a.call m
      cases hrecorded : (s.recordLoaded a.call m).1 with
      | error e =>
        rw [hrecorded] at hcheck
        refine hfail hcheck (modules_recordLoaded hrecorded) (fun l ↦ ?_) hf
        rw [← loading?_congr hloadings l]
        exact htaken _ l
      | ok d =>
        obtain rfl := eq_of_recordLoaded hrecorded
        obtain ⟨hrecord, himported⟩ := h.record hout (ha d houtcome) hrecorded
        have hwaits : (s.recordLoaded a.call d).2.isOutstanding a.call = true := by
          rw [isOutstanding, loading?_congr hloadings]
          exact hout
        have htake := hrecord.take hwaits himported
        simp only [takeAnswer, hcheck, hrecorded]
        split
        · next hl => exact htake.pass (by simpa using hl)
        · next hl => exact htake.come (by simpa using hl)

/-! ## The start of an operation -/

/-- A new operation comes to its module first. -/
theorem Charts.open (h : s.Charts W []) (p : PromiseId) (hostDefined : Option String)
    (hm : s'.modules = s.modules)
    (hl : s'.loadings = s.loadings.push { promise := p, hostDefined := hostDefined }) (m : ModuleId) :
    s'.Charts W [(⟨s.loadings.size⟩, m)] := by
  have hload : ∀ x, s'.loading? x = if x = ⟨s.loadings.size⟩ then
      some { promise := p, hostDefined := hostDefined } else s.loading? x := fun ⟨i⟩ ↦ by
    simp only [loading?, hl, Array.getElem?_push, LoadingId.mk.injEq]
  have hsome : ∀ x, (s.loading? x).isSome → (s'.loading? x).isSome ∧ x ≠ ⟨s.loadings.size⟩ :=
    fun x hx ↦ by
      have hne : x ≠ ⟨s.loadings.size⟩ := fun heq ↦ by
        rw [isSome_loading?, heq] at hx
        exact Nat.lt_irrefl _ hx
      refine ⟨?_, hne⟩
      rwa [hload, if_neg hne]
  have hbuilds : s.Builds s' := .of_modules hm
  refine ⟨fun x r hr hlr ↦ ?_, fun w hw ↦ ?_, fun t ht ↦ ?_, fun x r hr o ho ↦ ?_,
    h.filed.copy (.of_modules hm), h.rounded.copy (.of_modules hm) (old_congr hm)⟩
  · rw [hload] at hr
    split at hr
    · next hx =>
      subst hx
      obtain rfl := Option.some.inj hr
      have hwalks : walksOf W ⟨s.loadings.size⟩ = [] :=
        List.filter_eq_nil_iff.2 fun w hw ↦ by
          simpa using (hsome _ (h.walks w hw).1).2
      rw [hwalks, targetsOf_cons_self]
      exact ⟨rfl, by simp, by simp⟩
    · next hx =>
      rw [targetsOf_cons_ne (Ne.symm hx)]
      exact (h.charted x r hr hlr).builds hbuilds
  · simp only [hbuilds.entries]
    exact ⟨(hsome _ (h.walks w hw).1).1, (h.walks w hw).2⟩
  · obtain rfl := List.mem_singleton.1 ht
    rw [hload, if_pos rfl]
    rfl
  · rw [hbuilds.entries]
    rw [hload] at hr
    split at hr
    · obtain rfl := Option.some.inj hr
      exact absurd ho List.not_mem_nil
    · exact h.outstanding x r hr o ho

/-- An operation starts. -/
theorem Charts.startLoading (h : s.Charts W []) (m : ModuleId) (hostDefined : Option String) :
    (s.startLoading m hostDefined).2.2.Charts ((s.startLoading m hostDefined).2.1 :: W) [] := by
  have hopen : Charts { s.newPromise.2 with
      loadings := s.loadings.push { promise := s.newPromise.1, hostDefined := hostDefined } } W
      [(⟨s.loadings.size⟩, m)] := by
    refine h.open s.newPromise.1 hostDefined ?_ ?_ m <;> rfl
  refine hopen.come ?_
  simp [isLoading, loading?, newPromise, addPromise]

end Store

/-! ## Tasks and frames -/

section

variable {s s' : Store} {W : List LoadWalk}

theorem Next.loadWalks_of_isLoad {n : Next} (h : n.isLoad = false) : n.loadWalks = [] := by
  have htask : ∀ t : Task, t.isLoad = false → t.loadWalks = [] := fun t ht ↦ by
    cases t <;> first | rfl | exact nomatch ht
  have hframe : ∀ f : Frame, f.isLoad = false → f.loadWalks = [] := fun f hf ↦ by
    cases f <;> first | rfl | exact nomatch hf
  cases n with
  | goto t => exact htask t h
  | call t f =>
    obtain ⟨ht, hf⟩ := Bool.or_eq_false_iff.1 h
    rw [loadWalks, htask t ht, hframe f hf]
    rfl
  | give r => rfl

theorem EvaluationStep.isLoad_next (s : Store) (goal : EvaluationGoal) (step : EvaluationStep) :
    (step.next s goal).2.isLoad = false := by
  cases step <;> cases goal <;> rfl

/-- Nothing of loading comes of another task, but for a job in which the host is asked for an answer
that it has put off. -/
theorem Task.isLoad_advance (s : Store) {t : Task} (ht : t.isLoad = false) :
    (t.advance s).2.isLoad = false ∨ ∃ call, (t.advance s).2 = .goto (.ask (.answer call)) := by
  cases hw : t.isWalk with
  | false => exact .inl (Task.advance_isLoad s hw ht)
  | true =>
    cases t with
    | force m =>
      refine .inl ?_
      simp only [advance, Store.forceModule]
      split
      · rfl
      · rfl
      · exact EvaluationStep.isLoad_next _ _ _
    | evaluate m =>
      refine .inl ?_
      simp only [advance, Store.evaluate]
      split
      · rfl
      · split
        · rfl
        · exact EvaluationStep.isLoad_next _ _ _
    | evaluation goal w => exact .inl (EvaluationStep.isLoad_next _ _ _)
    | free ms =>
      refine .inl ?_
      rcases ms with _ | ⟨m, rest⟩
      · rfl
      · simp only [advance]
        split <;> rfl
    | job j =>
      obtain ⟨reaction, c⟩ := j
      cases reaction with
      | answerLoad call => exact .inr ⟨call, rfl⟩
      | _ => rcases c with e | ⟨⟩ <;> exact .inl rfl
    | link m =>
      refine .inl ?_
      simp only [advance]
      split <;> rfl
    | linking w => exact .inl (LinkStep.next_still _ _).2
    | _ => contradiction

theorem Frame.isLoad_resume (s : Store) (r : Result) {f : Frame} (hf : f.isLoad = false) :
    (f.resume s r).2.isLoad = false := by
  cases hw : f.isWalk with
  | false => exact Frame.resume_isLoad s r hw hf
  | true =>
    cases f with
    | executed goal m capability w => exact EvaluationStep.isLoad_next _ _ _
    | passed goal w => exact EvaluationStep.isLoad_next _ _ _
    | freed m capability rest => rfl
    | setUp m w =>
      simp only [resume]
      split
      · rfl
      · exact (LinkStep.next_still _ _).2
    | _ => contradiction

/-- No walk that loads comes of another task. -/
theorem Task.loadWalks_advance (s : Store) {t : Task} (ht : t.isLoad = false) :
    (t.advance s).2.loadWalks = [] := by
  rcases Task.isLoad_advance s ht with hload | ⟨call, heq⟩
  · exact Next.loadWalks_of_isLoad hload
  · rw [heq]
    rfl

/-- A frame that goes on leaves its walk. -/
theorem Frame.loadWalks_resume (s : Store) (r : Result) (f : Frame) :
    (f.resume s r).2.loadWalks = f.loadWalks := by
  cases hl : f.isLoad with
  | false =>
    rw [Next.loadWalks_of_isLoad (Frame.isLoad_resume s r hl)]
    cases f <;> first | rfl | contradiction
  | true => cases f <;> first | rfl | contradiction

/-- A task of a loading operation keeps its count. -/
theorem Task.advance_charts {t : Task} (h : s.Charts (t.loadWalks ++ W) []) (ht : t.isLoad = true)
    (ha : ∀ a rest m, t = .answers (a :: rest) → a.outcome = .ok m → (s.module? m).isSome) :
    (t.advance s).1.Charts ((t.advance s).2.loadWalks ++ W) [] := by
  cases t with
  | load m hostDefined =>
    simp only [advance]
    split
    · exact h.build (.of_modules rfl) (fun x ↦ (Store.old_congr rfl x).1)
        (h.filed.copy (.of_modules rfl)) rfl
    · exact h.startLoading m hostDefined
  | loading w =>
    have hadvance := Store.Charts.advance (W := W) h
    simp only [advance]
    cases hstep : (w.advance s).2 <;> rw [hstep] at hadvance <;> exact hadvance
  | ask q => exact h
  | answers as =>
    rcases as with _ | ⟨a, rest⟩
    · exact h
    · have hanswer := Store.Charts.answer (W := W) h fun m hm ↦ ha a rest m rfl hm
      simp only [advance]
      split <;> next heq => rw [heq] at hanswer; exact hanswer
  | _ => contradiction

end

/-! ## What is in scope -/

namespace Store

variable {s s' : Store} {W : List LoadWalk} {T : List (LoadingId × ModuleId)}

/-- The modules that are not new, and the requests that modules make. -/
def loadedScope (s : Store) : Scope := ⟨s.Old, fun m r ↦ r ∈ (s.entries m).requests⟩

/-- Nothing new comes of modules that are not new. -/
theorem Rounded.knows (h : s.Rounded) : s.Knows s.loadedScope := by
  refine ⟨⟨fun m r hr ↦ hr, fun m r d hm hr hd ↦ ?_⟩, fun m r hr hs ↦ ?_⟩
  · obtain ⟨x, hx, hold⟩ := h m hm r hr
    rwa [Option.some.inj (hd.symm.trans hx)]
  · simpa [loadedScope, Old, status?, hr] using hs

theorem Builds.within (h : s.Builds s') : s.loadedScope.Within s'.loadedScope :=
  ⟨h.old, fun m r hr ↦ by simpa only [loadedScope, h.entries] using hr⟩

theorem Builds.of_loads (h : s.Loads s') (hg : Grows s s') : s.Builds s' := by
  refine ⟨fun m ↦ ?_, hg, fun m ↦ ?_⟩ <;>
    have hm := h m
  · unfold Store.entries
    revert hm
    cases s.source? m <;> cases s'.source? m <;> rintro ⟨⟩
    · rfl
    · next hrel => exact congrArg Prod.fst hrel.script
  · unfold Old status?
    revert hm
    cases s.source? m <;> cases s'.source? m <;> rintro ⟨⟩
    · exact id
    · next hrel =>
      rcases hrel.status with heq | ⟨-, heq⟩
      · rw [Option.map_some, Option.map_some, heq]
        exact id
      · simp [heq]

/-- Neither modules nor what is being loaded change. -/
theorem Charts.copy (h : s.Charts W T) (hs : s.Copies s') (hold : ∀ x, s'.Old x ↔ s.Old x)
    (hl : s'.loadings = s.loadings) : s'.Charts W T :=
  h.build (.of_copies hs fun x ↦ (hold x).2) (fun x ↦ (hold x).1) (h.filed.copy hs) hl

/-- Synthetic modules are never new. -/
theorem Charts.modifySynthetic (h : s.Charts W T) (m : ModuleId) (f : Synthetic → Synthetic) :
    s.Builds (s.modifySynthetic m f) ∧ (s.modifySynthetic m f).Charts W T := by
  have hcopies : s.Copies (s.modifySynthetic m f) := by
    refine ⟨fun x ↦ ?_, fun x ↦ ?_, fun x ↦ ?_⟩
    · rw [Store.modifySynthetic, module?_modifyModule]
      split
      · exact Option.isSome_map
      · rfl
    · rw [loaded?, source?_modifySynthetic, loaded?]
    · rw [script?, source?_modifySynthetic, script?]
  have hold : ∀ x, (s.modifySynthetic m f).Old x ↔ s.Old x := fun x ↦ by
    rw [Old, status?, source?_modifySynthetic, Old, status?]
  exact ⟨.of_copies hcopies fun x ↦ (hold x).2, h.copy hcopies hold rfl⟩

theorem Charts.startSynthetic (h : s.Charts W T) (m : ModuleId) :
    s.Builds (s.startSynthetic m).2 ∧ (s.startSynthetic m).2.Charts W T := by
  unfold Store.startSynthetic
  split
  · exact ⟨.of_modules rfl, h⟩
  · split
    · exact ⟨.of_modules rfl, h⟩
    · exact ⟨.of_modules rfl, h⟩
    · exact h.modifySynthetic m _

end Store

/-! ## The machine -/

namespace Machine

variable {M : Machine}

/-- A module for which evaluation is called is not new, and the host answers with modules. -/
structure Fair (M M' : Machine) : Prop where
  evaluate : ∀ m, M.control = .run (.evaluate m) → M.store.Old m
  answers : ∀ a rest m, M.control = .run (.answers (a :: rest)) → a.outcome = .ok m →
    (M.store.module? m).isSome

/-- Loading operations have counted what they have to deal with, and evaluating and linking stay
among modules that are not new. -/
structure Charted (M : Machine) : Prop where
  charts : M.store.Charts M.loadWalks []
  among : M.Among M.store.loadedScope

theorem loadWalks_apply (fs : List Frame) (x : Store × Next) :
    (apply fs x).loadWalks = x.2.loadWalks ++ fs.flatMap Frame.loadWalks := by
  obtain ⟨s, n⟩ := x
  cases n with
  | call t f => exact (List.append_assoc _ _ _).symm
  | _ => rfl

/-- A step keeps the count of loading operations, and what has been loaded. -/
theorem Charted.builds {M' : Machine} (h : M.Charted) (hP : M.Fair M') :
    M.store.Builds M.step.store ∧ M.step.store.Charts M.step.loadWalks [] := by
  have hk := h.charts.rounded.knows
  rcases hnext : M.next? with _ | x
  · rw [step_of_next?_eq_none hnext]
    exact ⟨.of_modules rfl, h.charts⟩
  rw [step_of_next? hnext, store_apply, loadWalks_apply]
  obtain ⟨s, control, fs⟩ := M
  obtain ⟨hcharts, hrefers, hcurrent, hframes⟩ := h
  have hsame : ∀ {W}, s.Charts W [] → s.Among s.loadedScope x.1 →
      s.Builds x.1 ∧ x.1.Charts W [] := fun hc hx ↦
    have hold := fun y ↦ not_congr (hx.new_iff (fun _ ↦ id) y)
    ⟨.of_copies (.of_same hx.same) fun y ↦ (hold y).2,
      hc.copy (.of_same hx.same) hold hx.same.loadings⟩
  rcases control with t | r
  · obtain rfl : x = t.advance s := advance_of_next? hnext
    replace hcharts : s.Charts (t.loadWalks ++ fs.flatMap Frame.loadWalks) [] := hcharts
    cases hload : t.isLoad with
    | true =>
      have hw : t.isWalk = false := by cases t <;> first | rfl | contradiction
      exact ⟨.of_loads (Task.advance_loads s hw) (Task.advance_quiet s hw).1.grows,
        Task.advance_charts hcharts hload fun a rest m ht ↦ hP.answers a rest m (congrArg _ ht)⟩
    | false =>
      have hnil : t.loadWalks = [] := Next.loadWalks_of_isLoad (n := .goto t) hload
      rw [Task.loadWalks_advance s hload]
      rw [hnil] at hcharts
      cases hremote : t.isRemote with
      | false =>
        exact hsame hcharts (Task.advance_steps hrefers hk hcurrent
          (fun m ht ↦ hP.evaluate m (congrArg _ ht)) hremote).store
      | true =>
        cases t with
        | synthetic m =>
          have heq : (Task.advance s (.synthetic m)).1 = (s.startSynthetic m).2 := by
            simp only [Task.advance]
            split <;> next heq => rw [heq]
          rw [heq]
          exact hcharts.startSynthetic m
        | load m hostDefined => contradiction
        | loading w => contradiction
        | ask q => contradiction
        | answers as => contradiction
        | _ => contradiction
  · rcases fs with _ | ⟨f, fs⟩
    · contradiction
    obtain rfl : x = f.resume s r := (Option.some.inj hnext).symm
    replace hcharts : s.Charts (f.loadWalks ++ fs.flatMap Frame.loadWalks) [] := hcharts
    rw [List.forall_mem_cons] at hframes
    rw [Frame.loadWalks_resume]
    by_cases hin : ∀ m, f ≠ .syntheticSteps m
    · exact hsame hcharts (Frame.resume_steps hrefers hframes.1 r hin).store
    · simp only [ne_eq, not_forall, not_not] at hin
      obtain ⟨m, rfl⟩ := hin
      exact hcharts.modifySynthetic m _

theorem Charted.step {M' : Machine} (h : M.Charted) (hP : M.Fair M') : M.step.Charted :=
  have ⟨hbuilds, hcharts⟩ := h.builds hP
  ⟨hcharts, (h.among.step h.charts.rounded.knows hP.evaluate).mono hbuilds.within⟩

end Machine

/-! ## Runs -/

/-- No graph has been loaded yet, and there is nothing to be done. The modules have the entries of
texts in which no request repeats the key of an attribute. -/
structure Store.Unread (s : Store) : Prop where
  source : ∀ m r, s.source? m = some r →
    r.status = .new ∧ r.loaded = [] ∧ r.cycleRoot = none ∧ r.asyncParents = []
  entries : ∀ m r, s.source? m = some r → ∃ deferring body,
    r.entries = Entries.ofBody deferring body ∧
      ∀ d ∈ Entries.declarations body, ∀ q, Entries.requestOf? d = some q → q.Distinct
  loadings : s.loadings = #[]
  promises : s.promises = #[]
  jobs : s.jobs = []

/-- Between two calls, no walk loads. -/
def State.Charted : State → Prop
  | .idle s => s.Charts [] [] ∧ s.Refers s.loadedScope
  | .busy _ M => M.Charted

variable {s s' : Store}

theorem Store.Unread.filed (h : s.Unread) : s.Filed := by
  have hloaded : ∀ m r, s.source? m = some r → r.loaded = [] := fun m r hr ↦ (h.source m r hr).2.1
  refine ⟨fun m r hr ↦ ?_, fun m r hr ↦ ?_, fun m r hr ↦ ?_, fun m r hr ↦ ?_⟩
  · obtain ⟨deferring, body, heq, hdistinct⟩ := h.entries m r hr
    exact heq ▸ Entries.ofBody_proper deferring hdistinct
  · rw [hloaded m r hr]
    exact nofun
  · rw [hloaded m r hr]
    exact .nil
  · rw [hloaded m r hr]
    exact nofun

theorem Store.Unread.charts (h : s.Unread) : s.Charts [] [] := by
  have hnone : ∀ {l r}, s.loading? l ≠ some r := fun {l r} ↦ by simp [loading?, h.loadings]
  refine ⟨fun l r hr ↦ absurd hr hnone, by simp, by simp, fun l r hr ↦ absurd hr hnone, h.filed,
    fun m hm q hq ↦ ?_⟩
  rcases hr : s.source? m with _ | r
  · rw [Store.entries, hr] at hq
    exact absurd hq List.not_mem_nil
  · exact absurd (by rw [status?, hr, Option.map_some, (h.source m r hr).1]) hm

theorem Store.Unread.refers (h : s.Unread) (K : Scope) : s.Refers K := by
  refine ⟨fun m r hr ↦ ?_, fun m r hr ↦ ?_, fun m hm ↦ ?_⟩
  · rw [(h.source m r hr).2.2.2]
    exact nofun
  · rw [(h.source m r hr).2.2.1]
    exact nofun
  · rcases hm with ⟨p, hp⟩ | ⟨c, hc⟩
    · simp [reactions, promise?, h.promises] at hp
    · simp [h.jobs] at hc

namespace Machine

variable {M : Machine}

/-- The store changes aside from linking, evaluating and loading. -/
theorem Charted.apart (h : M.Charted) (ha : Apart M.store s') :
    ({ M with store := s' } : Machine).Charted := by
  have hsame := ha.steady.toSame
  have hold : ∀ x, s'.Old x ↔ M.store.Old x := fun x ↦ not_congr (by rw [ha.steady.status])
  have hbuilds : M.store.Builds s' := .of_copies (.of_same hsame) fun x ↦ (hold x).2
  exact ⟨h.charts.copy (.of_same hsame) hold hsame.loadings,
    ⟨(h.among.refers.aside ha).mono hbuilds.within, h.among.current.mono hbuilds.within,
      fun f hf ↦ (h.among.frames f hf).mono hbuilds.within⟩⟩

/-- The machine that begins with a task that is not a walk. -/
theorem Charted.start {t : Task} (h : s.Charts [] [] ∧ s.Refers s.loadedScope)
    (hwalks : t.loadWalks = []) (ht : t.Among s.loadedScope) : (start s t).Charted := by
  refine ⟨?_, h.2, ht, nofun⟩
  have heq : (Machine.start s t).loadWalks = t.loadWalks := List.append_nil _
  rw [heq, hwalks]
  exact h.1

end Machine

theorem Act.begin_charted {a : Act} {st : State} (ha : a.begin s = some st)
    (h : (State.idle s).Charted) : st.Charted := by
  have hapart : ∀ {s'}, Apart s s' → (State.idle s').Charted := fun {s'} hs ↦ by
    have hcharted : (Machine.mk s' (.give .done) []).Charted :=
      Machine.Charted.apart (M := ⟨s, .give .done, []⟩) ⟨h.1, h.2, trivial, by simp⟩ hs
    exact ⟨hcharted.charts, hcharted.among.refers⟩
  cases a with
  | namespaceOf m phase => exact Option.some.inj ha ▸ hapart (s.namespaceOf_apart m phase)
  | job =>
    simp only [begin] at ha
    split at ha
    · contradiction
    · next j rest hj =>
      obtain rfl := Option.some.inj ha
      have hcharts : Store.Charts { s with jobs := rest } [] [] :=
        h.1.copy (.of_modules rfl) (Store.old_congr rfl) rfl
      have hplans : ∀ m, Store.Plans { s with jobs := rest } (.completeModule m) →
          s.Plans (.completeModule m) := fun m hm ↦
        hm.imp_right (.imp fun c hc ↦ hj ▸ List.mem_cons_of_mem j hc)
      refine .start ⟨hcharts, h.2.of_outline rfl hplans⟩ rfl fun m hm ↦ ?_
      exact h.2.plans m (.inr ⟨j.completion, hj ▸ hm ▸ List.mem_cons_self⟩)
  | settle label c =>
    obtain ⟨p, -, rfl⟩ := Option.map_eq_some_iff.1 ha
    exact hapart (.settle s p c)
  | _ =>
    obtain rfl := Option.some.inj ha
    exact .start h rfl trivial

/-- What loading operations have counted stays so. -/
theorem State.Charted.turn {st st' : State} (h : st.Charted) (ht : Turn Machine.Fair st st') :
    st'.Charted := by
  cases ht with
  | call a ha => exact Act.begin_charted ha h
  | step hP => exact Machine.Charted.step h hP
  | consult _ hs => exact Machine.Charted.apart h hs.aside
  | @answer a M q as hq =>
    obtain ⟨s, control, fs⟩ := M
    obtain rfl : control = _ := Machine.control_of_question? hq
    exact ⟨h.charts, h.among.refers, trivial, h.among.frames⟩
  | @finish a M r hr =>
    obtain ⟨s, control, fs⟩ := M
    obtain ⟨rfl, rfl⟩ := Machine.end_of_result? hr
    exact ⟨h.charts, h.among.refers⟩

theorem State.Charted.turns {st st' : State} (h : st.Charted)
    (ht : Turns Machine.Fair st st') : st'.Charted := by
  induction ht with
  | refl => exact h
  | tail _ ht ih => exact ih.turn ht

/-! ## Closed graphs -/

namespace Store

variable {m x : ModuleId} {q : Request}

/-- The module was given for a request that the text of the other one makes. -/
def Gives (s : Store) (m d : ModuleId) : Prop :=
  ∃ q ∈ (s.entries m).asked, s.imported? m q = some d

/-- Every request of a text matches one that is listed, so it was given a module as well. -/
theorem Filed.imported (hs : s.Filed) (hr : s.Rounded) (hm : s.Old m)
    (hq : q ∈ (s.entries m).asked) : ∃ d, s.imported? m q = some d ∧ s.Old d := by
  have hproper := hs.entries m
  obtain ⟨r, hlisted, hsame⟩ := hproper.listed q hq
  obtain ⟨d, hd, hold⟩ := hr m hm r hlisted
  have hdistinct := hproper.distinct r (Entries.requests_subset_asked _ hlisted)
  exact ⟨d, (hs.imported_eq hdistinct hsame m).symm.trans hd, hold⟩

theorem Filed.old_of_gives (hs : s.Filed) (hr : s.Rounded) (hm : s.Old m)
    (hx : Relation.ReflTransGen s.Gives m x) : s.Old x := by
  induction hx with
  | refl => exact hm
  | tail _ hgives ih =>
    obtain ⟨q, hq, hd⟩ := hgives
    obtain ⟨d, hd', hold⟩ := hs.imported hr ih hq
    rwa [Option.some.inj (hd.symm.trans hd')]

theorem old_iff {r : SourceText} (hr : s.source? m = some r) : s.Old m ↔ r.status ≠ .new := by
  simp [Old, status?, hr]

/-- A module that is not new is a synthetic one, or has a status other than new. -/
theorem Old.cases (hm : s.Old m) (h : (s.module? m).isSome) :
    (s.synthetic? m).isSome ∨ ∃ r, s.source? m = some r ∧ r.status ≠ .new := by
  rw [isSome_module?, Bool.or_eq_true] at h
  rcases h with h | h
  · obtain ⟨r, hr, -⟩ := Option.map_eq_some_iff.1 (Option.isSome_iff_exists.1 h).choose_spec
    exact .inr ⟨r, hr, (old_iff hr).1 hm⟩
  · exact .inl (by simpa [progress] using h)

end Store

theorem State.Charted.closed {st : State} (h : st.Charted) : st.store.Filed ∧ st.store.Rounded := by
  cases st with
  | idle s => exact ⟨h.1.filed, h.1.rounded⟩
  | busy a M =>
    have hcharts := Machine.Charted.charts h
    exact ⟨hcharts.filed, hcharts.rounded⟩

/-- Loaded graphs are closed. If a module is not new, then each request that its text makes, be it
listed or that of an import, of a re-export or of a star export, matches one entry of what was given
to the module, and no other one; the module there is synthetic or not new. So everything that can be
reached from the module was given, and walks that link or evaluate find what they come to. -/
theorem loaded_graphs_are_closed {s₀ : Store} {st : State} (hs : s₀.Unread)
    (h : Turns Machine.Fair (.idle s₀) st) :
    (∀ m r, st.store.source? m = some r → r.status ≠ .new → ∀ q ∈ r.entries.asked,
      ∃ e, r.loaded.filter (·.request.same q) = [e] ∧ ((st.store.synthetic? e.module).isSome ∨
        ∃ r', st.store.source? e.module = some r' ∧ r'.status ≠ .new)) ∧
    (∀ m r, st.store.source? m = some r → r.status ≠ .new →
      ∀ x, Relation.ReflTransGen st.store.Gives m x →
        ∀ q ∈ (st.store.entries x).asked, (st.store.imported? x q).isSome) ∧
    (∀ a M w, st = .busy a M → M.control = .run (.linking w) → ∀ f ∈ w.frames,
      ∀ q ∈ f.requests ++ (M.store.entries f.module).asked,
        (M.store.imported? f.module q).isSome) ∧
    ∀ a M goal w, st = .busy a M → M.control = .run (.evaluation goal w) → ∀ f ∈ w.frames,
      ∀ q ∈ f.requests ++ (M.store.entries f.module).asked,
        (M.store.imported? f.module q).isSome := by
  have hstart : (State.idle s₀).Charted := ⟨hs.charts, hs.refers _⟩
  have hst := hstart.turns h
  obtain ⟨hfiled, hrounded⟩ := hst.closed
  have hsome : ∀ {x}, st.store.Old x → ∀ q ∈ (st.store.entries x).asked,
      (st.store.imported? x q).isSome := fun hx q hq ↦ by
    obtain ⟨d, hd, -⟩ := hfiled.imported hrounded hx hq
    rw [hd]
    rfl
  have hframe : ∀ {x} {qs : List Request}, st.store.Old x →
      (∀ q ∈ qs, q ∈ (st.store.entries x).requests) →
        ∀ q ∈ qs ++ (st.store.entries x).asked, (st.store.imported? x q).isSome :=
    fun hx hqs q hq ↦ hsome hx q <| (List.mem_append.1 hq).elim
      (fun hq ↦ Entries.requests_subset_asked _ (hqs q hq)) id
  refine ⟨fun m r hr hm q hq ↦ ?_, fun m r hr hm x hx ↦ ?_, fun a M w heq hw f hf ↦ ?_,
    fun a M goal w heq hw f hf ↦ ?_⟩
  · have hentries : st.store.entries m = r.entries := by rw [Store.entries, hr]; rfl
    obtain ⟨d, hd, hold⟩ :=
      hfiled.imported hrounded ((Store.old_iff hr).2 hm) (hentries ▸ hq)
    obtain ⟨e, he, hfilter, rfl⟩ := hfiled.filter_eq hr hd
    exact ⟨e, hfilter, hold.cases (hfiled.housed m r hr e he)⟩
  · exact hsome (hfiled.old_of_gives hrounded ((Store.old_iff hr).2 hm) hx)
  · subst heq
    have hcurrent := (Machine.Charted.among hst).current
    rw [Machine.current, hw] at hcurrent
    obtain ⟨hold, hasks⟩ := LinkWalk.Among.frames hcurrent f hf
    exact hframe hold hasks
  · subst heq
    have hcurrent := (Machine.Charted.among hst).current
    rw [Machine.current, hw] at hcurrent
    obtain ⟨hold, hasks⟩ := EvaluationWalk.Among.frames hcurrent f hf
    exact hframe hold hasks

/-- The condition on a step, as it can be computed. -/
def Machine.fairNow (M : Machine) : Bool :=
  match M.control with
  | .run (.evaluate m) => M.store.status? m != some .new
  | .run (.answers (⟨_, .ok m⟩ :: _)) => (M.store.module? m).isSome
  | _ => true

theorem Machine.fair_of_fairNow (M M' : Machine) (h : M.fairNow = true) : M.Fair M' := by
  refine ⟨fun m hm ↦ ?_, fun a rest m hm ha ↦ ?_⟩
  · simpa [fairNow, hm, Store.Old] using h
  · obtain ⟨call, outcome⟩ := a
    obtain rfl : outcome = _ := ha
    simpa [fairNow, hm] using h

/-- A module that imports nothing but the module of the given name, and has not been loaded. -/
def Module.unread (name : String) : Module where
  content := .sourceText
    { entries := Entries.ofBody true [.declaration (.imports [] { specifier := name })] }

/-- Two modules that request each other. -/
def mutualGraph : Store where
  modules := #[.unread "b", .unread "a"]

theorem mutualGraph.source_eq {m : ModuleId} {r : SourceText} (h : mutualGraph.source? m = some r) :
    ∃ name, r = { entries :=
      Entries.ofBody true [.declaration (.imports [] { specifier := name })] } := by
  obtain ⟨_ | _ | n⟩ := m
  · exact ⟨"b", (Option.some.inj h).symm⟩
  · exact ⟨"a", (Option.some.inj h).symm⟩
  · contradiction

theorem mutualGraph.unread : mutualGraph.Unread := by
  refine ⟨fun m r hr ↦ ?_, fun m r hr ↦ ?_, rfl, rfl, rfl⟩
  · obtain ⟨name, rfl⟩ := mutualGraph.source_eq hr
    exact ⟨rfl, rfl, rfl, rfl⟩
  · obtain ⟨name, rfl⟩ := mutualGraph.source_eq hr
    refine ⟨_, _, rfl, fun d hd q hq ↦ ?_⟩
    obtain rfl := List.mem_singleton.1 hd
    cases hq
    exact .nil

/-- The first module is being loaded, and the host is asked for the second one. -/
def mutualGraph.asked : Machine := Machine.step^[2] (.start mutualGraph (.load ⟨0⟩ none))

/-- The host is asked for what the second module requests. -/
def mutualGraph.askedAgain : Machine :=
  Machine.step^[2] (asked.answer [⟨⟨⟨0⟩, ⟨0⟩, { specifier := "b" }⟩, .ok ⟨1⟩⟩])

/-- The end of loading. -/
def mutualGraph.loaded : Machine :=
  Machine.step^[13] (askedAgain.answer [⟨⟨⟨0⟩, ⟨1⟩, { specifier := "a" }⟩, .ok ⟨0⟩⟩])

theorem loaded_graphs_are_closed_mutualGraph :
    mutualGraph.Unread ∧ Turns Machine.Fair (.idle mutualGraph) (.idle mutualGraph.loaded.store) ∧
      mutualGraph.loaded.store.status? ⟨0⟩ = some .unlinked ∧
      ∀ r, mutualGraph.loaded.store.source? ⟨0⟩ = some r → r.status ≠ .new →
        ∀ q ∈ r.entries.asked, ∃ e, r.loaded.filter (·.request.same q) = [e] ∧
          ((mutualGraph.loaded.store.synthetic? e.module).isSome ∨
            ∃ r', mutualGraph.loaded.store.source? e.module = some r' ∧ r'.status ≠ .new) := by
  have hsome : ∀ {α : Type} {o : Option α}, o.isSome = true → ∃ x, o = some x :=
    Option.isSome_iff_exists.1
  obtain ⟨_, hasked⟩ := hsome (o := mutualGraph.asked.question?) (by decide +kernel)
  obtain ⟨_, hagain⟩ := hsome (o := mutualGraph.askedAgain.question?) (by decide +kernel)
  obtain ⟨_, hresult⟩ := hsome (o := mutualGraph.loaded.result?) (by decide +kernel)
  have hfair := Machine.fair_of_fairNow
  have hturns : Turns Machine.Fair (.idle mutualGraph) (.idle mutualGraph.loaded.store) :=
    .trans (.head (.call (.load ⟨0⟩ none) rfl) (Turns.steps hfair (by decide +kernel))) <|
    .trans (.head (.answer _ hasked) (Turns.steps hfair (by decide +kernel))) <|
    .trans (.head (.answer _ hagain) (Turns.steps hfair (by decide +kernel))) <|
    .single (.finish hresult)
  exact ⟨mutualGraph.unread, hturns, by decide +kernel,
    (loaded_graphs_are_closed mutualGraph.unread hturns).1 ⟨0⟩⟩

end EcmaModules
