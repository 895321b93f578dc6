import EcmaModules.Proofs.Calling
import EcmaModules.Proofs.Settlement
import EcmaModules.Proofs.Sheltered

/-!
# What bodies do in a call

A call that evaluates runs bodies, one after the other. Which ones these are, and whether they throw, can be
read off the steps of the machine (`Machine.incidents`). A body that calls nothing comes back after a few steps, and
in between it changes nothing that has to do with evaluation (`Body.returns`). So a walk for which nothing
waits can be told as if bodies were run in one go: what becomes of the walk from the one body to the next
(`Store.Wends`), and at which module it fails (`Store.Founders`).
-/

namespace EcmaModules

open EvaluationWalk (back concludeExecuted detach push)

/-! ## Incidents -/

/-- What a body does, as far as others take notice. -/
inductive Incident where
  /-- The body of the module begins, or the steps of a synthetic one. -/
  | begins (m : ModuleId)
  /-- They come to their end with an error. -/
  | throws (m : ModuleId) (e : ErrorId)
deriving Repr, DecidableEq

/-- The module that is executed, or whose steps are run, from the task on. -/
def Task.begins? : Task → Option ModuleId
  | .body ⟨m, .execution _, _⟩ | .body ⟨m, .synthetic, _⟩ => some m
  | _ => none

/-- The module whose body the frame waits for. -/
def Frame.awaited? : Frame → Option ModuleId
  | .executed _ m _ _ | .syntheticSteps m | .freed m _ _ => some m
  | _ => none

namespace Machine

variable {M M' M'' : Machine} {l l' : List Incident}

/-- What a body does in the next step. -/
def incident? (M : Machine) : Option Incident :=
  match M.control, M.frames with
  | .run t, _ =>
    match (t.advance M.store).2 with
    | .call t _ => t.begins?.map .begins
    | _ => none
  | .give (.completion (.error e)), f :: _ => f.awaited?.map (.throws · e)
  | _, _ => none

/-- What bodies do in a number of steps. -/
def incidents : ℕ → Machine → List Incident
  | 0, _ => []
  | n + 1, M => M.incident?.toList ++ incidents n M.step

theorem incidents_add (k n : ℕ) (M : Machine) : incidents (k + n) M = incidents k M ++ incidents n (step^[k] M) := by
  induction k generalizing M with
  | zero => simp [incidents]
  | succ k ih => rw [Nat.add_right_comm, incidents, incidents, ih, List.append_assoc, Function.iterate_succ_apply]

/-- Nothing happens any more when a call is over. -/
theorem incidents_of_result? {r : Result} (h : M.result? = some r) (n : ℕ) : incidents n M = [] := by
  induction n with
  | zero => rfl
  | succ n ih =>
    have hincident : M.incident? = none := by
      obtain ⟨hcontrol, hframes⟩ := end_of_result? h
      rw [incident?, hcontrol, hframes]
      split
      · contradiction
      · contradiction
      · rfl
    rw [incidents, hincident, step_of_result? h, ih]
    rfl

/-- What bodies do in a call does not depend on when it is looked at, once the call is over. -/
theorem incidents_eq_of_result? {n k : ℕ} {r r' : Result} (h : (step^[n] M).result? = some r)
    (h' : (step^[k] M).result? = some r') : incidents n M = incidents k M := by
  have hlater : ∀ {i j : ℕ} {r : Result}, (step^[i] M).result? = some r → i ≤ j → incidents i M = incidents j M := by
    intro i j r h hle
    obtain ⟨d, rfl⟩ := Nat.exists_eq_add_of_le hle
    rw [incidents_add, incidents_of_result? h, List.append_nil]
  rcases le_total n k with hle | hle
  · exact hlater h hle
  · exact (hlater h' hle).symm

/-- The machine comes to be the other one, and bodies do this on the way. -/
def Leads (M : Machine) (l : List Incident) (M' : Machine) : Prop :=
  ∃ k, step^[k + 1] M = M' ∧ incidents (k + 1) M = l

theorem Leads.trans (h : M.Leads l M') (h' : M'.Leads l' M'') : M.Leads (l ++ l') M'' := by
  obtain ⟨k, rfl, rfl⟩ := h
  obtain ⟨n, rfl, rfl⟩ := h'
  refine ⟨k + 1 + n, ?_, incidents_add (k + 1) (n + 1) M⟩
  rw [← Function.iterate_add_apply]
  congr 1
  omega

theorem Leads.step (h : M.incident? = none) (hstep : M.step = M') : M.Leads [] M' :=
  ⟨0, hstep, by simp [incidents, h]⟩

theorem Leads.begin {m : ModuleId} (h : M.incident? = some (.begins m)) (hstep : M.step = M') :
    M.Leads [.begins m] M' := ⟨0, hstep, by simp [incidents, h]⟩

/-- In the next step nothing is called. -/
structure Calm (M : Machine) : Prop where
  link : ∀ m, M.control ≠ .run (.link m)
  evaluate : ∀ m, M.control ≠ .run (.evaluate m)
  force : ∀ m, M.control ≠ .run (.force m)

/-- From now on nothing is called. -/
def StaysCalm (M : Machine) : Prop := ∀ i, (step^[i] M).Calm

theorem StaysCalm.leads (h : M.StaysCalm) (hl : M.Leads l M') : M'.StaysCalm := by
  obtain ⟨k, rfl, -⟩ := hl
  intro i
  rw [← Function.iterate_add_apply]
  exact h (i + _)

end Machine

/-! ## Bodies -/

/-- A body that does not await takes all of its steps at once. -/
theorem Body.take_ne_pause (s : Store) {b : Body} (h : b.mode.capability? = none) (step : Step) :
    (take s b step).2 ≠ .pause := by
  cases step <;> simp only [take, h, withNamespace]
  all_goals first | (intro h; contradiction) | skip
  all_goals try split
  all_goals try unfold afterCompletion
  all_goals try split
  all_goals intro h; contradiction

variable {s s' : Store} {b : Body} {fs : List Frame} {n : NamespaceId} {name label : String} {probe : Bool}

theorem Machine.incident?_body : (Machine.mk s (.run (.body b)) fs).incident? = none := by
  obtain ⟨m, mode, steps⟩ := b
  rcases steps with _ | ⟨step, rest⟩
  · rfl
  · simp only [incident?, Task.advance, Body.advance]
    rcases Body.take s ⟨m, mode, rest⟩ step with ⟨s', result⟩
    cases result <;> rfl

/-- Reading that evaluates nothing ends at once, and the body goes on, or throws. -/
theorem Machine.leads_read (hcalm : (Machine.mk s (.run (.read n name)) (.bodyRead b label probe :: fs)).StaysCalm) :
    ∃ s', Apart s s' ∧
      ((Machine.mk s (.run (.read n name)) (.bodyRead b label probe :: fs)).Leads [] ⟨s', .run (.body b), fs⟩ ∨
        ∃ e, (Machine.mk s (.run (.read n name)) (.bodyRead b label probe :: fs)).Leads []
          (apply fs (Body.give s' b (.error e)))) := by
  have hread := (s.read_quiet n name).1
  rcases hforced : s.forcedBy? n name with _ | m
  · have hstep : (Machine.mk s (.run (.read n name)) (.bodyRead b label probe :: fs)).step =
        ⟨(s.readExport n name).2, .give (.value (s.readExport n name).1), .bodyRead b label probe :: fs⟩ := by
      show apply _ (s.read n name) = _
      simp only [Store.read, hforced]
      rfl
    have hincident : (Machine.mk s (.run (.read n name)) (.bodyRead b label probe :: fs)).incident? = none := by
      simp only [incident?, Task.advance, Store.read, hforced]
    have hfirst := Leads.step hincident hstep
    have hapart := s.readExport_apart n name
    generalize s.readExport n name = out at hfirst hapart
    obtain ⟨e | v, s₁⟩ := out
    · cases probe with
      | true => exact ⟨_, hapart.trans (.print _ _), .inl (hfirst.trans (.step rfl rfl))⟩
      | false => exact ⟨s₁, hapart, .inr ⟨e, hfirst.trans (.step rfl rfl)⟩⟩
    · exact ⟨_, hapart.trans (.print _ _), .inl (hfirst.trans (.step rfl rfl))⟩
  · refine absurd ?_ ((hcalm 1).force m)
    rw [Function.iterate_one]
    show (apply _ (s.read n name)).control = _
    simp only [Store.read, hforced]
    rfl

/-- A body that calls nothing comes back, and has left alone all that evaluation has to do with. -/
theorem Body.returns (hmode : b.mode.capability? = none)
    (hcalm : (Machine.mk s (.run (.body b)) fs).StaysCalm) :
    ∃ s' c, (Machine.mk s (.run (.body b)) fs).Leads [] ⟨s', .give (.completion c), fs⟩ ∧ Apart s s' := by
  obtain ⟨m, mode, steps⟩ := b
  replace hmode : mode.capability? = none := hmode
  have hgive : ∀ (s : Store) (steps : List Step) (c : Completion),
      Body.give s ⟨m, mode, steps⟩ c = (s, .give (.completion c)) := fun s steps c ↦ by
    cases mode with
    | execution capability =>
      obtain rfl : capability = none := hmode
      rfl
    | resumed capability => contradiction
    | _ => rfl
  induction steps generalizing s with
  | nil =>
    refine ⟨s, .ok (), .step Machine.incident?_body ?_, .refl s⟩
    show Machine.apply fs (Body.give s ⟨m, mode, []⟩ (.ok ())) = _
    rw [hgive]
    rfl
  | cons step rest ih =>
    have hapart := take_apart s ⟨m, mode, rest⟩ step
    have hpause := take_ne_pause s (b := ⟨m, mode, rest⟩) hmode step
    have hstep : ∀ {M : Machine}, Machine.apply fs (Body.advance s ⟨m, mode, step :: rest⟩) = M →
        (Machine.mk s (.run (.body ⟨m, mode, step :: rest⟩)) fs).Leads [] M := fun h ↦
      .step Machine.incident?_body h
    simp only [advance] at hstep
    rcases htake : take s ⟨m, mode, rest⟩ step with ⟨s₁, result⟩
    rw [htake] at hapart hpause
    simp only [htake] at hstep
    cases result with
    | next =>
      have hfirst := hstep rfl
      obtain ⟨s', c, hleads, hafter⟩ := ih (hcalm.leads hfirst)
      exact ⟨s', c, hfirst.trans hleads, hapart.trans hafter⟩
    | fail e =>
      exact ⟨s₁, .error e, hstep (congrArg (Machine.apply fs) (hgive s₁ rest (.error e))), hapart⟩
    | pause => exact absurd rfl hpause
    | read n name label probe =>
      have hfirst := hstep rfl
      obtain ⟨s₂, hread, hnext | ⟨e, hnext⟩⟩ := Machine.leads_read (hcalm.leads hfirst)
      · obtain ⟨s', c, hleads, hafter⟩ := ih (hcalm.leads (hfirst.trans hnext))
        exact ⟨s', c, hfirst.trans (hnext.trans hleads), hapart.trans (hread.trans hafter)⟩
      · rw [hgive] at hnext
        exact ⟨s₂, .error e, hfirst.trans hnext, hapart.trans hread⟩
    | link m' name => exact absurd rfl (((hcalm.leads (hstep rfl)) 0).link m')
    | evaluate m' name => exact absurd rfl (((hcalm.leads (hstep rfl)) 0).evaluate m')

/-! ## What walks notice of modules -/

namespace Store

/-- What a walk notices of a module with source text. -/
def state? (s : Store) (m : ModuleId) : Option (Status × Option ErrorId) :=
  (s.source? m).map fun r ↦ (r.status, r.evaluationError)

/-- The error that the module has failed with. -/
def failure? (s : Store) (m : ModuleId) : Option ErrorId :=
  match s.state? m, s.progress m with
  | some (_, e), _ => e
  | none, some (_, some (.error e)) => some e
  | _, _ => none

/-- The module is synthetic, and its steps have not been run. -/
def isUnrun (s : Store) (m : ModuleId) : Bool :=
  match s.progress m with
  | some (some _, none) => true
  | _ => false

/-- A walk that comes to the module does not just pass by. -/
def isDue (s : Store) (m : ModuleId) : Bool :=
  s.status? m == some .linked || (s.failure? m).isSome || s.isUnrun m

/-- For walks, modules are as they were. -/
structure Resembles (s s' : Store) : Prop where
  state : ∀ x, s'.state? x = s.state? x
  progress : ∀ x, s'.progress x = s.progress x

variable {s s' s'' : Store} {R : ModuleId → Prop} {m d x : ModuleId} {r : SourceText}

theorem Resembles.refl (s : Store) : s.Resembles s := ⟨fun _ ↦ rfl, fun _ ↦ rfl⟩

theorem Resembles.trans (h : s.Resembles s') (h' : s'.Resembles s'') : s.Resembles s'' :=
  ⟨fun x ↦ (h'.state x).trans (h.state x), fun x ↦ (h'.progress x).trans (h.progress x)⟩

theorem state?_eq (hr : s.source? m = some r) : s.state? m = some (r.status, r.evaluationError) := by
  rw [state?, hr]
  rfl

theorem state?_eq_none_iff : s.state? m = none ↔ s.source? m = none := Option.map_eq_none_iff

theorem progress_eq_none (hr : s.source? m = some r) : s.progress m = none := by
  rw [progress, Option.map_eq_none_iff, synthetic?]
  rw [source?] at hr
  split at hr
  · next heq => rw [heq]
  · contradiction

theorem failure?_eq (hr : s.source? m = some r) : s.failure? m = r.evaluationError := by
  rw [failure?, state?_eq hr]

theorem status?_eq_map_state? (s : Store) (m : ModuleId) : s.status? m = (s.state? m).map (·.1) := by
  rw [status?, state?, Option.map_map]
  rfl

theorem resembles_of_modules (h : s'.modules = s.modules) : s.Resembles s' := by
  refine ⟨fun x ↦ ?_, fun x ↦ ?_⟩
  · simp only [state?, source?, module?, h]
  · simp only [progress, synthetic?, module?, h]

theorem resembles_modifySource (s : Store) (m : ModuleId) {f : SourceText → SourceText}
    (hf : ∀ r, (f r).status = r.status ∧ (f r).evaluationError = r.evaluationError) :
    s.Resembles (s.modifySource m f) := by
  refine ⟨fun x ↦ ?_, fun x ↦ ?_⟩
  · rw [state?, source?_modifySource, state?]
    split
    · rcases s.source? x with _ | r
      · rfl
      · exact congrArg some (Prod.ext (hf r).1 (hf r).2)
    · rfl
  · rw [progress, synthetic?_modifySource, progress]

/-- What is to be done with a synthetic module. -/
theorem startSynthetic_comes (hd : s.source? d = none) :
    (s.isDue d = false ∧ s.startSynthetic d = (.over (.ok ()), s)) ∨
      (∃ e, s.failure? d = some e ∧ s.startSynthetic d = (.over (.error e), s)) ∨
      ∃ steps s', s.isUnrun d = true ∧ s.startSynthetic d = (.run steps, s') ∧
        (∀ x, s'.source? x = s.source? x) ∧
        ∀ x, s'.progress x = if x = d then some (none, none) else s.progress x := by
  have hstate := state?_eq_none_iff.2 hd
  have hstatus : s.status? d = none := by rw [status?, hd, Option.map_none]
  rcases hr : s.synthetic? d with _ | ⟨names, steps, values, completion⟩
  · exact .inl (by simp [isDue, failure?, isUnrun, progress, startSynthetic, hr, hstate, hstatus])
  rcases completion with _ | e | ⟨⟩
  · rcases steps with _ | steps
    · exact .inl (by simp [isDue, failure?, isUnrun, progress, startSynthetic, hr, hstate, hstatus])
    · refine .inr (.inr ⟨steps, _, by simp [isUnrun, progress, hr],
        by simp only [startSynthetic, hr]; rfl, fun x ↦ ?_, fun x ↦ ?_⟩)
      · exact source?_modifySynthetic s d _ x
      · rw [progress, synthetic?_modifySynthetic, progress]
        split
        · next hx => rw [hx, hr]; rfl
        · rfl
  · exact .inr (.inl ⟨e, by simp [failure?, progress, startSynthetic, hr, hstate]⟩)
  · exact .inl (by simp [isDue, failure?, isUnrun, progress, startSynthetic, hr, hstate, hstatus])

end Store

theorem Aside.resembles (h : Apart s s') : s.Resembles s' := by
  refine ⟨fun x ↦ ?_, h.steady.progress⟩
  have heach := Store.Each.of_outline h.outline x
  have hstatus := h.steady.status x
  rw [Store.status?, Store.status?] at hstatus
  rw [Store.state?, Store.state?]
  revert heach hstatus
  cases s.source? x <;> cases s'.source? x <;> rintro ⟨⟩ hstatus
  · rfl
  · next hr =>
    have herror : SourceText.evaluationError _ = SourceText.evaluationError _ := (congrArg (·.evaluationError) hr :)
    exact congrArg some (Prod.ext (Option.some.inj hstatus) herror)

/-! ## Steps of a walk for which nothing waits -/

variable {R : ModuleId → Prop} {w : EvaluationWalk} {m d : ModuleId} {q : SourceText} {goal : EvaluationGoal}
  {T : List Tour} {F X : List ModuleId} {H : List Event}

namespace EvaluationWalk

/-- The walk is back from a module that is being executed, or has been evaluated well. -/
theorem back_goes (hs : s.Sheltered R) (hd : R d) (hq : s.source? d = some q)
    (hsearched : q.status.isSearched = false)
    (hwell : q.status = .evaluating ∨ s.evaluationError? (s.cycleRoot d) = none) :
    ∃ s', back s w d = (s', .go w) ∧ s.Resembles s' := by
  unfold back
  split
  · exact ⟨s, rfl, .refl s⟩
  next f rest _ =>
  rcases hr : s.source? f.module with _ | r
  · simp only [leave, hr]
    exact ⟨s, rfl, .refl s⟩
  simp only [leave, hr, hq]
  by_cases hlead : leadsBack q.status r.status = true
  · rw [if_pos hlead, (hs.lowerAncestor _).await_eq hd]
    refine ⟨_, rfl, s.resembles_modifySource _ ?_⟩
    exact fun _ ↦ ⟨rfl, rfl⟩
  have hnot : q.status ≠ .asyncSubgraphsSearching := fun heq ↦ by simp [heq, Status.isSearched] at hsearched
  have hover : s.evaluationError? (s.cycleRoot d) = none :=
    hwell.resolve_left fun heq ↦ hlead (by simp [leadsBack, heq])
  rw [if_neg hlead, if_neg hnot, hover, hs.await_eq (hs.cycleRoot hd)]
  exact ⟨s, rfl, .refl s⟩

theorem resembles_detach (s : Store) (w : EvaluationWalk) (d : ModuleId) : s.Resembles (detach s w d) := by
  unfold detach
  split
  · refine s.resembles_modifySource d ?_
    exact fun _ ↦ ⟨rfl, rfl⟩
  · exact .refl s

/-- A module that has been evaluated well stands for itself from then on, or a module on the stack does. -/
theorem evaluationError?_detach (hd : s.source? d = some q) (hover : q.status = .evaluated)
    (herror : q.evaluationError = none) (hstack : ∀ x ∈ w.stack, s.evaluationError? x = none) :
    (detach s w d).evaluationError? ((detach s w d).cycleRoot d) = none := by
  have hstatus : s.status? d = some .evaluated := by rw [Store.status?, hd, Option.map_some, hover]
  unfold detach
  split
  · have hself : (s.modifySource d fun r ↦ { r with cycleRoot := some d }).source? d =
        some { q with cycleRoot := some d } := by rw [Store.source?_modifySource, if_pos rfl, hd]; rfl
    have hroot : (s.modifySource d fun r ↦ { r with cycleRoot := some d }).cycleRoot d = d := by
      rw [Store.cycleRoot, hself]
      rfl
    rw [hroot, Store.evaluationError?, hself]
    exact herror
  · next hnot =>
    refine hstack _ ?_
    simpa [hstatus] using hnot

/-- The walk is through with a module. It goes on, and has taken the component off its stack, or nothing. -/
inductive Concluded (s : Store) (w : EvaluationWalk) (m : ModuleId) : Store × EvaluationStep → Prop where
  | stays {s' : Store} : s.Resembles s' → Concluded s w m (s', .go w)
  | pops {s' : Store} {above below : List ModuleId} :
      PopsComponent s.Requests s.depth w.stack (w.frames.map (·.module)) m above below →
      (∀ x, s'.state? x = if x ∈ above ++ [m] then some (.evaluated, none) else s.state? x) →
      (∀ x, s'.progress x = s.progress x) → Concluded s w m (s', .go { w with stack := below })

end EvaluationWalk

/-- When a component is complete for which nothing waits, its modules have been evaluated. -/
theorem Closes.state? {above below : List ModuleId} (h : Closes s goal w above below m)
    (hwell : ∀ x ∈ above ++ [m], ∀ r, s.source? x = some r → r.asyncState ≠ .pending ∧ r.evaluationError = none)
    (x : ModuleId) : (s.completeMembers m (above ++ [m])).state? x =
      if x ∈ above ++ [m] then some (.evaluated, none) else s.state? x := by
  rw [Store.state?, h.source?]
  split
  · next hx =>
    obtain ⟨r, hr, hst⟩ := h.evaluating x (h.mem_stack hx)
    obtain ⟨hpending, herror⟩ := hwell x hx r hr
    have hover : EvaluationWalk.completeStatus r = .evaluated := by
      simp [EvaluationWalk.completeStatus, hst, hpending]
    rw [hr]
    exact congrArg some (Prod.ext hover herror)
  · rfl

theorem Scene.Woven.concluded (h : Scene.Woven ⟨s, ⟨goal, .through m, w⟩ :: T, F, X, [], [], H⟩)
    (hR : s.Secluded R) (hs : s.Sheltered R) (hm : R m) : w.Concluded s m (concludeExecuted s w m) := by
  have hvalid := h.valid
  have hmem : m ∈ w.stack := (hvalid.sound.path _ List.mem_cons_self).subset List.mem_cons_self
  obtain ⟨r, hr, hst⟩ := h.eager.evaluating hvalid List.mem_cons_self hmem
  unfold concludeExecuted
  rw [EvaluationWalk.closesComponent_eq hvalid]
  cases hroot : s.isComponentRoot m with
  | false =>
    obtain ⟨s', hback, hresembles⟩ :=
      EvaluationWalk.back_goes (w := w) hs hm hr (by rw [hst]; rfl) (.inl hst)
    rw [if_neg Bool.false_ne_true, hback]
    exact .stays hresembles
  | true =>
    obtain ⟨above, below, hstack, hnot, hbelow, hvalid', -⟩ := EvaluationWalk.pop_lands .solitary hvalid hroot
    have hcloses := h.composed.closes hvalid h.eager hstack hroot
    have hpops := hcloses.popsComponent (h.tours _ List.mem_cons_self)
    have hdrop := EvaluationWalk.dropWhile_settling hvalid'
    have hs' : (s.completeMembers m (above ++ [m])).Sheltered R :=
      (Move.pop hstack hnot hroot : Move .solitary _ _).sheltered h hR hs
    have hstate := hcloses.state? fun x hx r hr ↦ by
      obtain ⟨q, hq, hst⟩ := hcloses.evaluating x (hcloses.mem_stack hx)
      obtain rfl := Option.some.inj (hr.symm.trans hq)
      refine ⟨(hs.pending x r (hR.reaches hm ((hpops.component x).1 hx).1) hr).2, ?_⟩
      simpa using (hvalid.sound.lawful x _ (Store.outline_eq_some hr)).error (by simp [hst])
    -- the root of the component stands for it now, and has been evaluated well
    have hself : (s.completeMembers m (above ++ [m])).cycleRoot m = m := by
      rw [Store.cycleRoot, ← Store.root?, hcloses.root?_eq, if_pos (List.mem_append_right _ List.mem_cons_self)]
      rfl
    obtain ⟨q, hq, hq'⟩ := Option.map_eq_some_iff.1 ((hstate m).trans
      (if_pos (List.mem_append_right _ List.mem_cons_self)))
    obtain ⟨hover, herror⟩ := Prod.mk.inj hq'
    obtain ⟨s', hback, hresembles⟩ := EvaluationWalk.back_goes (w := { w with stack := below }) hs' hm hq
      (by rw [hover]; rfl) (.inr (by rw [hself, Store.evaluationError?, hq]; exact herror))
    dsimp only at hdrop
    simp only [if_true, hstack, EvaluationWalk.popExecuted_append s hbelow, hdrop, hback]
    refine .pops hpops (fun x ↦ (hresembles.state x).trans (hstate x)) fun x ↦ (hresembles.progress x).trans ?_
    have hsynthetic : (s.completeMembers m (above ++ [m])).synthetic? x = s.synthetic? x :=
      Store.synthetic?_foldl s x (fun s d ↦ Store.synthetic?_modifySource s d _ x) _
    rw [Store.progress, hsynthetic, Store.progress]

namespace Store

/-- The walk takes up a module, for a request of the one on top of its path. -/
def Takes (s : Store) (w : EvaluationWalk) (d : ModuleId) (w' : EvaluationWalk) : Prop :=
  ∃ m r requests rest, w.frames = ⟨m, .executing, r :: requests⟩ :: rest ∧ s.imported? m r = some d ∧
    w' = { w with frames := ⟨m, .executing, requests⟩ :: rest }

/-- What becomes of a walk, and of modules, until it goes on to the next one. -/
inductive Wends (s : Store) (w : EvaluationWalk) : List Incident → Store × EvaluationWalk → Prop where
  | pass {d : ModuleId} {w' : EvaluationWalk} {s' : Store} :
      s.Takes w d w' → s.isDue d = false → s.Resembles s' → Wends s w [] (s', w')
  | enter {d : ModuleId} {w' : EvaluationWalk} {s' : Store} :
      s.Takes w d w' → s.status? d = some .linked →
      (∀ x, s'.state? x = if x = d then some (.evaluating, none) else s.state? x) →
      (∀ x, s'.progress x = s.progress x) →
      Wends s w [] (s',
        { frames := ⟨d, .executing, (s.entries d).requests⟩ :: w'.frames
          stack := d :: w.stack
          index := w.index + 1 })
  /-- The steps of a synthetic module are run. -/
  | steps {d : ModuleId} {w' : EvaluationWalk} {s' : Store} :
      s.Takes w d w' → s.source? d = none → s.isUnrun d = true → (∀ x, s'.state? x = s.state? x) →
      (∀ x, s'.progress x = if x = d then some (none, some (.ok ())) else s.progress x) →
      Wends s w [.begins d] (s', w')
  /-- A module is executed, and stays on the stack. -/
  | stay {m : ModuleId} {rest : List EvaluationFrame} {s' : Store} :
      w.frames = ⟨m, .executing, []⟩ :: rest → s.Resembles s' →
      Wends s w [.begins m] (s', { w with frames := rest })
  /-- A module is executed, and its component is complete. -/
  | pop {m : ModuleId} {rest : List EvaluationFrame} {above below : List ModuleId} {index : ModuleId → ℕ}
      {s' : Store} : w.frames = ⟨m, .executing, []⟩ :: rest →
      PopsComponent s.Requests index w.stack (rest.map (·.module)) m above below →
      (∀ x, s'.state? x = if x ∈ above ++ [m] then some (.evaluated, none) else s.state? x) →
      (∀ x, s'.progress x = s.progress x) →
      Wends s w [.begins m] (s', { w with frames := rest, stack := below })

/-- How a walk fails, and at which module. -/
inductive Founders (s : Store) (w : EvaluationWalk) : List Incident → ModuleId → ErrorId → Store → Prop where
  /-- The module had failed before. -/
  | met {d : ModuleId} {w' : EvaluationWalk} {e : ErrorId} :
      s.Takes w d w' → s.failure? d = some e → Founders s w [] d e s
  | steps {d : ModuleId} {w' : EvaluationWalk} {e : ErrorId} {s' : Store} :
      s.Takes w d w' → s.source? d = none → s.isUnrun d = true → (∀ x, s'.state? x = s.state? x) →
      (∀ x, s'.progress x = if x = d then some (none, some (.error e)) else s.progress x) →
      (∀ x, s'.capability? x = s.capability? x) → Founders s w [.begins d, .throws d e] d e s'
  | execute {m : ModuleId} {rest : List EvaluationFrame} {e : ErrorId} {s' : Store} :
      w.frames = ⟨m, .executing, []⟩ :: rest → s.Resembles s' →
      (∀ x, s'.capability? x = s.capability? x) → Founders s w [.begins m, .throws m e] m e s'

theorem Founders.capability? {l : List Incident} {e : ErrorId} (h : s.Founders w l d e s') (x : ModuleId) :
    s'.capability? x = s.capability? x := by
  cases h with
  | met _ _ => rfl
  | steps _ _ _ _ _ hcapability => exact hcapability x
  | execute _ _ hcapability => exact hcapability x

end Store

namespace Machine

/-- What holds of every machine of a call in which modules do not wait. -/
structure Sequential (R : ModuleId → Prop) (M : Machine) : Prop where
  calm : M.Calm
  interlinked : M.Interlinked
  woven : ∃ H, (M.scene H).Woven ∧ M.Fit H
  secluded : M.store.Secluded R
  sheltered : M.store.Sheltered R

/-- This is so from now on. -/
def StaysSequential (R : ModuleId → Prop) (M : Machine) : Prop := ∀ i, (step^[i] M).Sequential R

variable {M M' : Machine} {l : List Incident} {f : Frame} {fs : List Frame}

theorem StaysSequential.leads (h : M.StaysSequential R) (hl : M.Leads l M') : M'.StaysSequential R := by
  obtain ⟨k, rfl, -⟩ := hl
  intro i
  rw [← Function.iterate_add_apply]
  exact h (i + _)

theorem StaysSequential.now (h : M.StaysSequential R) : M.Sequential R := h 0

theorem StaysSequential.calm (h : M.StaysSequential R) : M.StaysCalm := fun i ↦ (h i).calm

theorem Leads.throw {m : ModuleId} {e : ErrorId} (h : M.incident? = some (.throws m e)) (hstep : M.step = M') :
    M.Leads [.throws m e] M' := ⟨0, hstep, by simp [incidents, h]⟩

end Machine

theorem PopsComponent.congr {α : Type} {S S' : α → α → Prop} {index : α → ℕ} {stack path above below : List α}
    {a : α} (h : PopsComponent S index stack path a above below) (hS : S' = S) :
    PopsComponent S' index stack path a above below := hS ▸ h

/-- Bodies leave the graph as it is. -/
theorem Aside.requests (h : Apart s s') : s'.Requests = s.Requests := by
  funext x y
  simp only [Store.Requests, h.steady.entries, h.steady.imported]

namespace Machine

/-- The machine takes the walk of an evaluation further, and nothing waits for the promise. -/
def walking (root : ModuleId) (p : PromiseId) (s : Store) (w : EvaluationWalk) : Machine :=
  ⟨s, .run (.evaluation (.promise root p) w), []⟩

/-- What comes of a walk next. -/
inductive Fares (root : ModuleId) (p : PromiseId) (s : Store) (w : EvaluationWalk) : Prop where
  | wends {l : List Incident} {y : Store × EvaluationWalk} :
      s.Wends w l y → (walking root p s w).Leads l (walking root p y.1 y.2) → Fares root p s w
  | founders {l : List Incident} {d : ModuleId} {e : ErrorId} {s' : Store} :
      s.Founders w l d e s' →
      (walking root p s w).Leads l ⟨(s'.failModules w.stack e).reject p e, .give (.promise p), []⟩ →
      Fares root p s w
  | done : w.frames = [] →
      (walking root p s w).Leads [] ⟨s.finishEvaluation root p, .give (.promise p), []⟩ →
      Fares root p s w

variable {root : ModuleId} {p : PromiseId} {rest : List EvaluationFrame} {w' : EvaluationWalk}

/-- Nothing is called in the next step of the walk. -/
theorem leads_advance (root : ModuleId) (p : PromiseId) {y : Store × EvaluationStep} (hy : w.advance s = y)
    (hcall : ∀ t f, (y.2.next y.1 (.promise root p)).2 ≠ .call t f) :
    (walking root p s w).Leads [] (apply [] (y.2.next y.1 (.promise root p))) := by
  have hnext : Task.advance s (.evaluation (.promise root p) w) = y.2.next y.1 (.promise root p) := by
    rw [← hy, Task.advance]
  refine .step ?_ (congrArg (apply []) hnext)
  rcases hn : (y.2.next y.1 (.promise root p)).2 with t | ⟨t, f⟩ | r
  · simp only [walking, incident?, hnext, hn]
  · exact absurd hn (hcall t f)
  · simp only [walking, incident?, hnext, hn]

namespace StaysSequential

/-- The walk is through with the requests of a module. -/
theorem executes (h : (walking root p s w).StaysSequential R) (hf : w.frames = ⟨m, .executing, []⟩ :: rest)
    (hm : R m) : Fares root p s w := by
  obtain ⟨H, hwoven, -⟩ := h.now.woven
  have hsecluded : s.Secluded R := h.now.secluded
  have hsheltered : s.Sheltered R := h.now.sheltered
  have hvalid : Valid ⟨s, [⟨.promise root p, .here, w⟩], [], [], [], [], H⟩ := hwoven.valid
  obtain ⟨r, hr⟩ := EvaluationWalk.source_of_frames hvalid (f := ⟨m, .executing, []⟩)
    (hf ▸ List.mem_cons_self)
  have hadvance : w.advance s = (s, .execute m none { w with frames := rest }) := by
    simp only [EvaluationWalk.advance, hf, EvaluationWalk.execute, show s.source? m = some r from hr,
      (hsheltered.pending m r hm hr).1, hsecluded.awaits m r hm hr]
    rfl
  have hbegins : (walking root p s w).Leads [.begins m]
      ⟨s, .run (s.execution m none), [.executed (.promise root p) m none { w with frames := rest }]⟩ := by
    refine .begin ?_ ?_
    · simp only [walking, incident?, Task.advance, hadvance]
      rfl
    · show apply [] (Task.advance s (.evaluation (.promise root p) w)) = _
      simp only [Task.advance, hadvance]
      rfl
  obtain ⟨s₁, c, hreturns, hapart⟩ := Body.returns (b := ⟨m, .execution none, ((s.source? m).map (·.body)).getD []⟩)
    rfl (h.leads hbegins).calm
  have hleads := hbegins.trans hreturns
  have hafter := h.leads hleads
  rcases c with e | ⟨⟩
  · exact .founders (.execute hf hapart.resembles (Store.capability?_of_outline hapart.outline))
      (hleads.trans (.throw rfl rfl))
  · obtain ⟨H, hwoven, hfit⟩ := hafter.now.woven
    have hb : .began m none ∈ H :=
      hfit.piled.called _ List.mem_cons_self (m, none) (List.mem_singleton.2 rfl)
    have hmove : Move .solitary ((Machine.mk s₁ (.give (.completion (.ok ())))
      [.executed (.promise root p) m none { w with frames := rest }]).scene H) _ := .ended hb (c := .ok ()) (.inl rfl)
    have hconcluded := (hmove.weaves ⟨not_false, not_false⟩ hwoven).concluded hafter.now.secluded
      hafter.now.sheltered hm
    have hstep : (Machine.mk s₁ (.give (.completion (.ok ())))
        [.executed (.promise root p) m none { w with frames := rest }]).step = apply []
          ((concludeExecuted s₁ { w with frames := rest } m).2.next
            (concludeExecuted s₁ { w with frames := rest } m).1 (.promise root p)) := rfl
    dsimp only at hconcluded
    generalize concludeExecuted s₁ { w with frames := rest } m = out at hconcluded hstep
    cases hconcluded with
    | stays hresembles =>
      exact .wends (.stay hf (hapart.resembles.trans hresembles)) (hleads.trans (.step rfl hstep))
    | pops hpops hstate hprogress =>
      refine .wends (.pop hf (hpops.congr hapart.requests.symm) (fun x ↦ ?_) (fun x ↦ ?_))
        (hleads.trans (.step rfl hstep))
      · rw [hstate, hapart.resembles.state]
      · rw [hprogress, hapart.resembles.progress]

/-- The walk comes to a module that is being executed, or has been evaluated well. -/
theorem passes (h : (walking root p s w).StaysSequential R) (htakes : s.Takes w d w') (hd : R d)
    (hq : s.source? d = some q) (hactive : q.status = .evaluating ∨ q.status = .evaluated)
    (herror : q.evaluationError = none) (hadvance : w.advance s = EvaluationWalk.arrive s w' d .executing)
    (hwoven : Scene.Woven ⟨s, [⟨.promise root p, .coming d .executing, w'⟩], [], [], [], [], H⟩) :
    Fares root p s w := by
  have htraversal : q.traversal .executing = .executing := by simp [SourceText.traversal]
  have harrival : q.arrival .executing = .pass := by
    rcases hactive with hs | hs <;> simp [SourceText.arrival, htraversal, hs, herror]
  have hmove : Move .solitary ⟨s, [⟨.promise root p, .coming d .executing, w'⟩], [], [], [], [], H⟩ _ :=
    .pass hq harrival (.inl trivial)
  have hdetached := hmove.sheltered hwoven h.now.secluded h.now.sheltered
  rw [htraversal, if_pos rfl] at hdetached
  have hresembles := EvaluationWalk.resembles_detach s w' d
  obtain ⟨q', hq', heq⟩ := Option.map_eq_some_iff.1 ((hresembles.state d).trans (Store.state?_eq hq))
  obtain ⟨hstatus', -⟩ := Prod.mk.inj heq
  have hwell : ∀ x ∈ w'.stack, s.evaluationError? x = none := fun x hx ↦ by
    obtain ⟨r, hr, hst⟩ := hwoven.eager.evaluating hwoven.valid List.mem_cons_self hx
    rw [Store.evaluationError?, show s.source? x = some r from hr]
    simpa using (hwoven.valid.sound.lawful x _ (Store.outline_eq_some hr)).error (by simp [hst])
  obtain ⟨s', hback, hafter⟩ := EvaluationWalk.back_goes (w := w') hdetached hd hq'
    (by rcases hactive with hs | hs <;> rw [hstatus', hs] <;> rfl)
    (hactive.imp hstatus'.trans fun hover ↦ EvaluationWalk.evaluationError?_detach hq hover herror hwell)
  simp only [EvaluationWalk.arrive, hq, harrival, htraversal, if_true, hback] at hadvance
  refine .wends (.pass htakes ?_ (hresembles.trans hafter)) (leads_advance root p hadvance (by rintro _ _ ⟨⟩))
  have hnot : s.status? d ≠ some .linked := by
    rcases hactive with hs | hs <;> simp [Store.status?, hq, hs]
  simp [Store.isDue, hnot, Store.failure?_eq hq, herror, Store.isUnrun, Store.progress_eq_none hq]

/-- The walk comes to a module with source text. -/
theorem arrives (h : (walking root p s w).StaysSequential R) (htakes : s.Takes w d w') (hd : R d)
    (hq : s.source? d = some q) (hlinked : s.Linked d)
    (hadvance : w.advance s = EvaluationWalk.arrive s w' d .executing)
    (hwoven : Scene.Woven ⟨s, [⟨.promise root p, .coming d .executing, w'⟩], [], [], [], [], H⟩) :
    Fares root p s w := by
  have hsheltered : s.Sheltered R := h.now.sheltered
  have hlawful := hwoven.valid.sound.lawful d _ (Store.outline_eq_some hq)
  have hstack : w'.stack = w.stack ∧ w'.index = w.index := by
    obtain ⟨_, _, _, _, -, -, rfl⟩ := htakes
    exact ⟨rfl, rfl⟩
  have hstatus : s.status? d = some q.status := by rw [Store.status?, hq, Option.map_some]
  have htraversal : q.traversal .executing = .executing := by simp [SourceText.traversal]
  rcases herror : q.evaluationError with _ | e
  · by_cases hst : q.status = .linked
    · have harrival : q.arrival .executing = .enter .executing := by
        simp [SourceText.arrival, htraversal, hst]
      simp only [EvaluationWalk.arrive, hq, harrival] at hadvance
      have hleads := leads_advance root p hadvance (by rintro _ _ ⟨⟩)
      simp only [push, hstack] at hleads
      refine .wends (y := (s.modifySource d (·.entered .executing w.index), _))
        (.enter htakes (hstatus.trans (congrArg some hst)) (fun x ↦ ?_) fun x ↦ ?_) hleads
      · rw [Store.state?, Store.source?_modifySource]
        split
        · next hx =>
          rw [hx, hq]
          exact congrArg some (Prod.ext rfl herror)
        · rfl
      · rw [Store.progress, Store.synthetic?_modifySource, Store.progress]
    · refine h.passes htakes hd hq ?_ herror hadvance hwoven
      have hsearched : q.status.isSearched = false := hwoven.eager.status d q hq
      have hrank := Store.linked_iff.1 hlinked q.status hstatus
      have hwaits : q.status ≠ .evaluatingAsync := fun hst ↦
        (hsheltered.pending d q hd hq).2 (by simpa using hlawful.waiting (.inl (by simp [hst])))
      cases hs : q.status <;> simp [hs, Status.isSearched] at hst hwaits hsearched ⊢ <;>
        exact absurd (hs ▸ hrank) (by decide)
  · have hover : q.status = .evaluated := by
      by_contra hne
      have := hlawful.error (by simpa using hne)
      simp [herror] at this
    have harrival : q.arrival .executing = .fail e := by
      simp [SourceText.arrival, htraversal, hover, herror]
    simp only [EvaluationWalk.arrive, hq, harrival, hstack] at hadvance
    have hleads := leads_advance root p hadvance (by rintro _ _ ⟨⟩)
    exact .founders (.met htakes (by rw [Store.failure?_eq hq, herror])) hleads

/-- The steps of a synthetic module are run, and the walk goes on, or fails. -/
theorem runs (h : (walking root p s w).StaysSequential R) (htakes : s.Takes w d w') (hd : s.source? d = none)
    (hunrun : s.isUnrun d = true) {steps : List Step} (hstart : s.startSynthetic d = (.run steps, s'))
    (hsource : ∀ x, s'.source? x = s.source? x)
    (hprogress : ∀ x, s'.progress x = if x = d then some (none, none) else s.progress x)
    (hfirst : (walking root p s w).Leads [] ⟨s, .run (.synthetic d), [.passed (.promise root p) w']⟩) :
    Fares root p s w := by
  have hstack : w'.stack = w.stack := by
    obtain ⟨_, _, _, _, -, -, rfl⟩ := htakes
    rfl
  have hnext : Task.advance s (.synthetic d) =
      (s', .call (.body ⟨d, .synthetic, steps⟩) (.syntheticSteps d)) := by rw [Task.advance, hstart]
  have hbegins := hfirst.trans (.begin (m := d) (by simp only [incident?, hnext]; rfl) (congrArg (apply _) hnext))
  obtain ⟨s₁, c, hreturns, hapart⟩ := Body.returns rfl (h.leads hbegins).calm
  have hleads := hbegins.trans hreturns
  -- how the steps ended is remembered
  have hsource' : ∀ x, (s₁.finishSynthetic d c).source? x = s₁.source? x := fun x ↦
    Store.source?_modifySynthetic s₁ d _ x
  have hstate' : ∀ x, (s₁.finishSynthetic d c).state? x = s.state? x := fun x ↦ by
    rw [Store.state?, hsource', Store.state?, ← hsource]
    exact hapart.resembles.state x
  have hcapability : ∀ x, (s₁.finishSynthetic d c).capability? x = s.capability? x := fun x ↦
    (Store.capability?_of_source hsource' x).trans
      ((Store.capability?_of_outline hapart.outline x).trans (Store.capability?_of_source hsource x))
  have hprogress' : ∀ x, (s₁.finishSynthetic d c).progress x = if x = d then some (none, some c) else s.progress x :=
    fun x ↦ by
      have hx := (hapart.resembles.progress x).trans (hprogress x)
      rw [Store.progress] at hx
      rw [Store.progress, Store.finishSynthetic, Store.synthetic?_modifySynthetic]
      split
      · next heq =>
        rw [if_pos heq] at hx
        obtain ⟨r, hr, hsteps⟩ := Option.map_eq_some_iff.1 hx
        rw [hr]
        exact congrArg some (Prod.ext (Prod.mk.inj hsteps).1 rfl)
      · next hne => rwa [if_neg hne] at hx
  rcases c with e | ⟨⟩
  · refine .founders (.steps htakes hd hunrun hstate' hprogress' hcapability) ?_
    rw [← hstack]
    exact (hleads.trans (.throw rfl rfl)).trans (.step rfl rfl)
  · exact .wends (.steps htakes hd hunrun hstate' hprogress')
      ((hleads.trans (.step rfl rfl)).trans (.step rfl rfl))

/-- The walk comes to a synthetic module. -/
theorem summons (h : (walking root p s w).StaysSequential R) (htakes : s.Takes w d w') (hd : s.source? d = none)
    (hadvance : w.advance s = (s, .synthetic d w')) : Fares root p s w := by
  have hstack : w'.stack = w.stack := by
    obtain ⟨_, _, _, _, -, -, rfl⟩ := htakes
    rfl
  have hnext : Task.advance s (.evaluation (.promise root p) w) =
      (s, .call (.synthetic d) (.passed (.promise root p) w')) := by
    rw [Task.advance, hadvance]
    rfl
  have hfirst : (walking root p s w).Leads [] ⟨s, .run (.synthetic d), [.passed (.promise root p) w']⟩ := by
    refine .step ?_ (congrArg (apply []) hnext)
    simp only [walking, incident?, hnext]
    rfl
  have hover : ∀ {c : Completion}, s.startSynthetic d = (.over c, s) →
      (walking root p s w).Leads [] ⟨s, .give (.completion c), [.passed (.promise root p) w']⟩ := fun {c} hc ↦ by
    have hc : Task.advance s (.synthetic d) = (s, .give (.completion c)) := by rw [Task.advance, hc]
    have hsecond : (Machine.mk s (.run (.synthetic d)) [.passed (.promise root p) w']).Leads []
        ⟨s, .give (.completion c), [.passed (.promise root p) w']⟩ := by
      refine .step ?_ (congrArg (apply _) hc)
      simp only [incident?, hc]
    exact hfirst.trans hsecond
  rcases Store.startSynthetic_comes hd with ⟨hdue, hstart⟩ | ⟨e, hfailed, hstart⟩ |
    ⟨steps, s', hunrun, hstart, hsource, hprogress⟩
  · exact .wends (.pass htakes hdue (.refl s)) ((hover hstart).trans (.step rfl rfl))
  · refine .founders (.met htakes hfailed) ?_
    rw [← hstack]
    exact (hover hstart).trans (.step rfl rfl)
  · exact h.runs htakes hd hunrun hstart hsource hprogress hfirst

/-- A walk goes on, ends, or fails. -/
theorem fares (h : (walking root p s w).StaysSequential R) (hw : ∀ x ∈ w.stack, R x) : Fares root p s w := by
  obtain ⟨H, hwoven, -⟩ := h.now.woven
  rcases hf : w.frames with _ | ⟨⟨m, t, requests⟩, rest⟩
  · have hadvance : w.advance s = (s, .done) := by simp only [EvaluationWalk.advance, hf]
    exact .done hf (leads_advance root p hadvance (by rintro _ _ ⟨⟩))
  have hmem : (⟨m, t, requests⟩ : EvaluationFrame) ∈ w.frames := hf ▸ List.mem_cons_self
  have hstack : m ∈ w.stack := hwoven.valid.sound.mem_stack_of_mem_frames List.mem_cons_self hmem
  obtain ⟨rfl, hphases⟩ := (hwoven.eager.tours _ List.mem_cons_self).frames _ hmem
  rcases requests with _ | ⟨r, requests⟩
  · exact h.executes hf (hw m hstack)
  obtain ⟨d, hd⟩ := Option.isSome_iff_exists.1 (h.now.interlinked.loaded hwoven rfl _ r rest requests hf rfl)
  have hd : s.imported? m r = some d := hd
  have htakes : s.Takes w d { w with frames := ⟨m, .executing, requests⟩ :: rest } :=
    ⟨m, r, requests, rest, hf, hd, rfl⟩
  have hphase : EvaluationWalk.nextTraversal .executing r = .executing := by
    simp [EvaluationWalk.nextTraversal, hphases r List.mem_cons_self]
  have hadvance : w.advance s =
      EvaluationWalk.arrive s { w with frames := ⟨m, .executing, requests⟩ :: rest } d .executing := by
    simp only [EvaluationWalk.advance, hf, hd, hphase]
  have hrequests : s.Requests m d :=
    ⟨r, (hwoven.tours _ List.mem_cons_self).asks _ hmem List.mem_cons_self, hd⟩
  rcases hq : s.source? d with _ | q
  · exact h.summons htakes hq (by rw [hadvance, EvaluationWalk.arrive, hq])
  · obtain ⟨u, hu, hst⟩ := hwoven.eager.evaluating hwoven.valid List.mem_cons_self hstack
    have hlinked : s.Linked m := Store.linked_iff.2 fun status hs ↦ by
      rw [Store.status?, show s.source? m = some u from hu, Option.map_some, hst] at hs
      rw [← Option.some.inj hs]
      decide
    have hmove : Move .solitary ⟨s, [⟨.promise root p, .here, w⟩], [], [], [], [], H⟩ _ := .request hf hd
    have hcoming := hmove.weaves ⟨not_false, not_false⟩ hwoven
    rw [hphase] at hcoming
    exact h.arrives htakes (h.now.secluded.closed m d (hw m hstack) hrequests) hq
      (h.now.interlinked.linking.closed m d hlinked hrequests) hadvance hcoming

end StaysSequential

end Machine

end EcmaModules
