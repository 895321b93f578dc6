import EcmaModules.Proofs.Play
import EcmaModules.Proofs.Pledges
import EcmaModules.Proofs.Stock

/-!
# The one outcome of a synthetic module

The steps of a synthetic module are taken out before they run. While they run they are neither there any
more nor over, and whoever evaluates the module then, out of the steps themselves, finds nothing to do.

What is done to synthetic modules in a run is written down, the latest first. A synthetic module is at any
time what these doings have made of it, and those that concern one module can only be: none yet; that its
steps began, which then are on the stack of frames once; and that they have also ended.
-/

namespace EcmaModules

/-! ## Doings -/

/-- What is done to a synthetic module. -/
inductive Doing where
  /-- The steps are taken out and begin. -/
  | begins (m : ModuleId)
  /-- The steps have come to an end. -/
  | ends (m : ModuleId) (c : Completion)
  /-- Somebody sets an export, whether the module has it or not. -/
  | sets (x : Setting)

/-- What becomes of the synthetic module at a place. -/
def Doing.on (d : ModuleId) (r : Synthetic) : Doing → Synthetic
  | .begins m => if d = m then { r with steps := none } else r
  | .ends m c => if d = m then { r with completion := some c } else r
  | .sets x => x.given d r

/-- How often the steps of the module have begun. -/
def beginnings (m : ModuleId) : List Doing → Nat
  | [] => 0
  | .begins d :: D => if d = m then beginnings m D + 1 else beginnings m D
  | .ends _ _ :: D => beginnings m D
  | .sets _ :: D => beginnings m D

/-- How the steps of the module have ended. -/
def endings (m : ModuleId) : List Doing → List Completion
  | [] => []
  | .begins _ :: D => endings m D
  | .ends d c :: D => if d = m then c :: endings m D else endings m D
  | .sets _ :: D => endings m D

/-- What the export of the module was set to last. -/
def lastSet? (m : ModuleId) (name : String) : List Doing → Option Value
  | [] => none
  | .begins _ :: D => lastSet? m name D
  | .ends _ _ :: D => lastSet? m name D
  | .sets x :: D => if x.module = m ∧ x.name = name then some x.value else lastSet? m name D

/-- The synthetic module at a place after doings, the latest first. -/
def Synthetic.after (r : Synthetic) (d : ModuleId) (D : List Doing) : Synthetic :=
  D.foldr (fun e r ↦ e.on d r) r

/-- Nothing has been done to the module. -/
structure Synthetic.IsNew (r : Synthetic) : Prop where
  steps : r.steps.isSome
  values : r.values = []
  completion : r.completion = none

namespace Synthetic

variable {r : Synthetic} {d : ModuleId} {D : List Doing} {name : String}

theorem after_append (D' : List Doing) : r.after d (D' ++ D) = (r.after d D).after d D' :=
  List.foldr_append

theorem exportNames_after : (r.after d D).exportNames = r.exportNames := by
  induction D with
  | nil => rfl
  | cons e D ih =>
    refine Eq.trans (b := (r.after d D).exportNames) ?_ ih
    change (e.on d (r.after d D)).exportNames = _
    cases e with
    | sets x =>
      simp only [Doing.on, Setting.given]
      split <;> rfl
    | _ =>
      simp only [Doing.on]
      split <;> rfl

/-- The steps are there until they begin. -/
theorem steps_after : (r.after d D).steps = if beginnings d D = 0 then r.steps else none := by
  induction D with
  | nil => rfl
  | cons e D ih =>
    change (e.on d (r.after d D)).steps = _
    cases e with
    | begins m =>
      by_cases hm : d = m
      · simp [Doing.on, beginnings, hm]
      · simp [Doing.on, beginnings, hm, Ne.symm hm, ih]
    | ends m c =>
      simp only [Doing.on, beginnings]
      split <;> exact ih
    | sets x =>
      simp only [Doing.on, Setting.given, beginnings]
      split <;> exact ih

/-- The module remembers the latest completion. -/
theorem completion_after : (r.after d D).completion = (endings d D).head?.or r.completion := by
  induction D with
  | nil => rfl
  | cons e D ih =>
    change (e.on d (r.after d D)).completion = _
    cases e with
    | begins m =>
      simp only [Doing.on, endings]
      split <;> exact ih
    | ends m c =>
      by_cases hm : d = m
      · simp [Doing.on, endings, hm]
      · simp [Doing.on, endings, hm, Ne.symm hm, ih]
    | sets x =>
      simp only [Doing.on, Setting.given, endings]
      split <;> exact ih

/-- An export holds what it was set to last. -/
theorem lookup_values_after (hname : r.exportNames.contains name = true) :
    (r.after d D).values.lookup name = (lastSet? d name D).or (r.values.lookup name) := by
  induction D with
  | nil => rfl
  | cons e D ih =>
    change (e.on d (r.after d D)).values.lookup name = _
    cases e with
    | begins m =>
      simp only [Doing.on, lastSet?]
      split <;> exact ih
    | ends m c =>
      simp only [Doing.on, lastSet?]
      split <;> exact ih
    | sets x =>
      simp only [Doing.on, lastSet?, Setting.given, exportNames_after]
      by_cases hx : x.module = d ∧ x.name = name
      · obtain ⟨rfl, rfl⟩ := hx
        rw [if_pos ⟨rfl, hname⟩, if_pos ⟨rfl, rfl⟩, List.lookup_cons, BEq.rfl]
        rfl
      · rw [if_neg hx]
        split
        · next hgiven =>
          have hne : name ≠ x.name := fun heq ↦ hx ⟨hgiven.1.symm, heq.symm⟩
          rwa [List.lookup_cons, beq_false_of_ne hne]
        · exact ih

end Synthetic

/-! ## The doings of a step -/

/-- The synthetic module whose steps a frame waits for. -/
def Frame.synthetic? : Frame → Option ModuleId
  | .syntheticSteps m => some m
  | _ => none

/-- The synthetic modules whose steps are run, the innermost first. -/
def Machine.running (M : Machine) : List ModuleId := M.frames.filterMap Frame.synthetic?

/-- What the next step does to synthetic modules. -/
def Machine.doings (M : Machine) : List Doing :=
  match M.control, M.frames with
  | .run (.synthetic m), _ =>
    match M.store.startSynthetic m with
    | (.run _, _) => [.begins m]
    | (.over _, _) => []
  | .run (.body b), _ => ((b.setting? M.store).map .sets).toList
  | .give r, .syntheticSteps m :: _ => [.ends m r.toCompletion]
  | _, _ => []

/-- The synthetic modules whose steps are run after a doing. -/
def Doing.runs (R : List ModuleId) : Doing → List ModuleId
  | .begins m => m :: R
  | .ends _ _ => R.tail
  | .sets _ => R

/-- What comes next runs no steps of synthetic modules. -/
def Next.isStepless : Next → Bool
  | .call _ (.syntheticSteps _) => false
  | _ => true

theorem EvaluationStep.isStepless_next (step : EvaluationStep) (s : Store) (goal : EvaluationGoal) :
    (step.next s goal).2.isStepless = true := by
  cases step with
  | done => cases goal <;> rfl
  | failed e left => cases goal <;> rfl
  | _ => rfl

theorem LinkStep.isStepless_next (step : LinkStep) (s : Store) : (step.next s).2.isStepless = true := by
  cases step <;> rfl

/-- Steps of a synthetic module begin only when it is evaluated. -/
theorem Task.isStepless_advance (s : Store) {t : Task} (ht : ∀ m, t ≠ .synthetic m) :
    (t.advance s).2.isStepless = true := by
  cases t with
  | body b =>
    simp only [advance, Body.advance]
    split
    · rfl
    · split <;> rfl
  | read n name =>
    simp only [advance, Store.read]
    split <;> rfl
  | force m =>
    simp only [advance, Store.forceModule]
    split
    · rfl
    · rfl
    · exact EvaluationStep.isStepless_next _ _ _
  | synthetic m => exact absurd rfl (ht m)
  | linking w => exact LinkStep.isStepless_next _ _
  | evaluate m =>
    simp only [advance, Store.evaluate]
    split
    · rfl
    · split
      · rfl
      · exact EvaluationStep.isStepless_next _ _ _
  | evaluation goal w => exact EvaluationStep.isStepless_next _ _ _
  | free ms =>
    rcases ms with _ | ⟨m, rest⟩
    · rfl
    · simp only [advance]
      split <;> rfl
  | loading w =>
    simp only [advance]
    cases (w.advance s).2 <;> rfl
  | answers as =>
    rcases as with _ | ⟨a, rest⟩
    · rfl
    · simp only [advance]
      split <;> rfl
  | job j =>
    simp only [advance, Job.run]
    split <;> rfl
  | _ =>
    simp only [advance]
    try split
    all_goals rfl

theorem Frame.isStepless_resume (s : Store) (r : Result) (f : Frame) : (f.resume s r).2.isStepless = true := by
  cases f with
  | setUp m w =>
    simp only [resume]
    split
    · rfl
    · exact LinkStep.isStepless_next _ _
  | executed goal m capability w => exact EvaluationStep.isStepless_next _ _ _
  | passed goal w => exact EvaluationStep.isStepless_next _ _ _
  | _ =>
    simp only [resume]
    try split
    all_goals rfl

namespace Machine

variable {M : Machine} {s : Store} {b : Body}

theorem running_apply {fs : List Frame} {x : Store × Next} (hx : x.2.isStepless = true) :
    (apply fs x).running = fs.filterMap Frame.synthetic? := by
  obtain ⟨s, n⟩ := x
  cases n with
  | call t f => cases f <;> first | rfl | contradiction
  | _ => rfl

theorem store_apply_of {fs : List Frame} (x : Store × Next) : (apply fs x).store = x.1 := by
  obtain ⟨s, n⟩ := x
  cases n <;> rfl

/-- A body whose step sets an export. -/
theorem synthetic?_advance_of_sets {x : Setting} (hx : b.setting? s = some x) (d : ModuleId) :
    (b.advance s).1.synthetic? d = (s.synthetic? d).map (x.given d) := by
  obtain ⟨m, mode, steps⟩ := b
  cases steps with
  | nil => exact nomatch hx
  | cons step rest =>
    obtain ⟨s', hs', htake⟩ := Body.take_of_sets (b := ⟨m, mode, rest⟩) hx
    have hset : (s'.setExport x.module x.name x.value).2.synthetic? d = (s.synthetic? d).map (x.given d) := by
      rw [s'.synthetic?_setExport, hs' d]
    simp only [Body.advance, htake]
    generalize s'.setExport x.module x.name x.value = out at hset
    rcases out with ⟨e | ⟨⟩, s''⟩
    · exact (Body.give_synthetics s'' ⟨m, mode, rest⟩ (.error e) d).trans hset
    · exact hset

/-- A step does to synthetic modules what its doings say. -/
theorem synthetic?_step (M : Machine) (d : ModuleId) :
    M.step.store.synthetic? d = (M.store.synthetic? d).map fun r ↦ r.after d M.doings := by
  have hsame : ∀ {s' : Store}, M.doings = [] → s'.synthetic? d = M.store.synthetic? d →
      s'.synthetic? d = (M.store.synthetic? d).map fun r ↦ r.after d M.doings := fun hnil h ↦ by
    rw [h, hnil]
    exact Option.map_id'.symm
  rcases hnext : M.next? with _ | x
  · rw [step_of_next?_eq_none hnext]
    obtain ⟨s, t | r, fs⟩ := M
    · cases t <;> first | exact hsame rfl rfl | contradiction
    · rcases fs with _ | ⟨f, fs⟩
      · exact hsame rfl rfl
      · contradiction
  rw [step_of_next? hnext, store_apply_of]
  obtain ⟨s, t | r, fs⟩ := M
  · obtain rfl : x = t.advance s := advance_of_next? hnext
    cases t with
    | body b =>
      rcases hset : b.setting? s with _ | y
      · exact hsame (by simp only [doings, hset]; rfl) (Body.advance_synthetics hset d)
      · have hdoings : (Machine.mk s (.run (.body b)) fs).doings = [.sets y] := by
          simp only [doings, hset]
          rfl
        rw [hdoings]
        exact synthetic?_advance_of_sets hset d
    | synthetic m =>
      rcases s.startSynthetic_cases m with ⟨c, heq⟩ | ⟨steps, -, heq⟩
      · exact hsame (by simp only [doings, heq]) (by simp only [Task.advance, heq])
      · have hdoings : (Machine.mk s (.run (.synthetic m)) fs).doings = [.begins m] := by
          simp only [doings, heq]
        rw [hdoings]
        simp only [Task.advance, heq, Store.synthetic?_modifySynthetic]
        split
        · next hd => simp [Synthetic.after, Doing.on, hd]
        · next hd => simp [Synthetic.after, Doing.on, hd]
    | _ => exact hsame rfl (Task.advance_synthetics s (by rintro _ ⟨⟩) (by rintro _ ⟨⟩) d)
  · rcases fs with _ | ⟨f, fs⟩
    · contradiction
    obtain rfl : x = f.resume s r := (Option.some.inj hnext).symm
    cases f with
    | syntheticSteps m =>
      change (s.finishSynthetic m r.toCompletion).synthetic? d =
        (s.synthetic? d).map fun r' ↦ r'.after d [.ends m r.toCompletion]
      rw [Store.finishSynthetic, Store.synthetic?_modifySynthetic]
      split
      · next hd => simp [Synthetic.after, Doing.on, hd]
      · next hd => simp [Synthetic.after, Doing.on, hd]
    | _ => exact hsame rfl (Frame.resume_synthetics s r (by rintro _ ⟨⟩) d)

/-- Steps that begin are on top of the frames, and those that end were. -/
theorem running_step (M : Machine) :
    M.step.running = M.doings.foldr (fun e R ↦ e.runs R) M.running := by
  rcases hnext : M.next? with _ | x
  · rw [step_of_next?_eq_none hnext]
    obtain ⟨s, t | r, fs⟩ := M
    · cases t <;> first | rfl | contradiction
    · rcases fs with _ | ⟨f, fs⟩
      · rfl
      · contradiction
  rw [step_of_next? hnext]
  obtain ⟨s, t | r, fs⟩ := M
  · obtain rfl : x = t.advance s := advance_of_next? hnext
    have hrest : (Machine.mk s (.run t) fs).rest = fs := rfl
    rw [hrest]
    cases t with
    | body b =>
      rw [running_apply (Task.isStepless_advance s (by rintro _ ⟨⟩))]
      simp only [doings]
      cases b.setting? s <;> rfl
    | synthetic m =>
      rcases s.startSynthetic_cases m with ⟨c, heq⟩ | ⟨steps, -, heq⟩
      · simp only [doings, Task.advance, heq]
        rfl
      · simp only [doings, Task.advance, heq]
        rfl
    | _ => exact running_apply (Task.isStepless_advance s (by rintro _ ⟨⟩))
  · rcases fs with _ | ⟨f, fs⟩
    · contradiction
    obtain rfl : x = f.resume s r := (Option.some.inj hnext).symm
    have hrest : (Machine.mk s (.give r) (f :: fs)).rest = fs := rfl
    rw [hrest, running_apply (Frame.isStepless_resume s r f)]
    cases f <;> rfl

end Machine

/-! ## Runs -/

/-- The synthetic modules whose steps are run. -/
def State.running : State → List ModuleId
  | .idle _ => []
  | .busy _ M => M.running

/-- What the next step does to synthetic modules. -/
def State.doings : State → List Doing
  | .idle _ => []
  | .busy _ M => M.doings

/-- The states that runs from a store lead to, with what has been done to synthetic modules. Bodies may do
what they like, and so may the steps of synthetic modules. Callers from outside may set exports, too. -/
inductive Doings (s₀ : Store) : State → List Doing → Prop where
  | start : Doings s₀ (.idle s₀) []
  | turn {st st' : State} {D : List Doing} :
      Doings s₀ st D → Turn (fun _ _ ↦ True) st st' → Doings s₀ st' (st.doings ++ D)
  | set {s : Store} {D : List Doing} (x : Setting) :
      Doings s₀ (.idle s) D → Doings s₀ (.idle (s.setExport x.module x.name x.value).2) (.sets x :: D)

/-- How often the steps of a module have begun, how they have ended, and how often they are on the stack of
frames. -/
inductive Lifetime : Nat → List Completion → Nat → Prop where
  | before : Lifetime 0 [] 0
  | during : Lifetime 1 [] 1
  | after (c : Completion) : Lifetime 1 [c] 0

theorem Lifetime.beginnings_le_one {k j : Nat} {C : List Completion} (h : Lifetime k C j) : k ≤ 1 := by
  cases h with
  | before => exact Nat.zero_le 1
  | _ => exact le_rfl

theorem Lifetime.eq_of_mem {k j : Nat} {C : List Completion} {c : Completion} (h : Lifetime k C j)
    (hc : c ∈ C) : C = [c] := by
  cases h with
  | after c' => rw [List.mem_singleton.1 hc]
  | _ => contradiction

/-- What doings tell of a module that was new. -/
structure State.Recalls (st : State) (m : ModuleId) (r₀ : Synthetic) (D : List Doing) : Prop where
  module : st.store.synthetic? m = some (r₀.after m D)
  lifetime : Lifetime (beginnings m D) (endings m D) (st.running.count m)

namespace State.Recalls

variable {st st' : State} {m : ModuleId} {r₀ : Synthetic} {D : List Doing}

/-- Nothing is done to synthetic modules. -/
theorem keep (h : st.Recalls m r₀ D) (hs : st.store.SameSynthetics st'.store)
    (hrunning : st'.running = st.running) : st'.Recalls m r₀ D :=
  ⟨(hs m).trans h.module, hrunning ▸ h.lifetime⟩

/-- An export is set. -/
theorem set (h : st.Recalls m r₀ D) {x : Setting}
    (hs : st'.store.synthetic? m = (st.store.synthetic? m).map (x.given m))
    (hrunning : st'.running = st.running) : st'.Recalls m r₀ (.sets x :: D) := by
  refine ⟨?_, hrunning ▸ h.lifetime⟩
  rw [hs, h.module]
  rfl

/-- The steps of a module begin. They are still there, so they have not begun before. -/
theorem begins (h : st.Recalls m r₀ D) {d : ModuleId} (hsteps : (st.store.steps? d).isSome) :
    Lifetime (beginnings m (.begins d :: D)) (endings m (.begins d :: D))
      ((d :: st.running).count m) := by
  have hlife := h.lifetime
  simp only [beginnings, endings]
  by_cases hd : d = m
  · subst hd
    rw [Store.steps?, h.module, Option.bind_some, Synthetic.steps_after] at hsteps
    rw [if_pos rfl, List.count_cons_self]
    generalize beginnings d D = k at *
    generalize endings d D = C at *
    generalize st.running.count d = j at *
    cases hlife with
    | before => exact .during
    | _ => contradiction
  · rwa [if_neg hd, List.count_cons_of_ne hd]

/-- The steps of a module end. They are on the stack of frames, so they have begun and not ended. -/
theorem ends (h : st.Recalls m r₀ D) {d : ModuleId} {R : List ModuleId} (hrunning : st.running = d :: R)
    (c : Completion) :
    Lifetime (beginnings m (.ends d c :: D)) (endings m (.ends d c :: D)) (R.count m) := by
  have hlife := hrunning ▸ h.lifetime
  simp only [beginnings, endings]
  by_cases hd : d = m
  · subst hd
    rw [List.count_cons_self] at hlife
    rw [if_pos rfl]
    generalize beginnings d D = k at *
    generalize endings d D = C at *
    generalize R.count d = j at *
    cases hlife
    exact .after c
  · rw [List.count_cons_of_ne hd] at hlife
    rwa [if_neg hd]

theorem step {a : Act} {M : Machine} (h : (State.busy a M).Recalls m r₀ D) :
    (State.busy a M.step).Recalls m r₀ (M.doings ++ D) := by
  have hmodule : M.step.store.synthetic? m = some (r₀.after m (M.doings ++ D)) := by
    rw [M.synthetic?_step, show M.store.synthetic? m = _ from h.module, Option.map_some,
      Synthetic.after_append]
  refine ⟨hmodule, ?_⟩
  have hlife : Lifetime _ _ (M.running.count m) := h.lifetime
  change Lifetime _ _ (M.step.running.count m)
  rw [M.running_step]
  obtain ⟨s, t | r, fs⟩ := M
  · cases t with
    | body b =>
      simp only [Machine.doings]
      rcases b.setting? s with _ | x
      · exact hlife
      · exact hlife
    | synthetic d =>
      rcases s.startSynthetic_cases d with ⟨c, heq⟩ | ⟨steps, hsteps, heq⟩
      · simp only [Machine.doings, heq]
        exact hlife
      · simp only [Machine.doings, heq]
        exact h.begins (Option.isSome_of_mem hsteps)
    | _ => exact hlife
  · rcases fs with _ | ⟨f, fs⟩
    · exact hlife
    cases f with
    | syntheticSteps d => exact h.ends rfl r.toCompletion
    | _ => exact hlife

end State.Recalls

theorem Act.begin_synthetics {s : Store} {a : Act} {st : State} (ha : a.begin s = some st) :
    s.SameSynthetics st.store ∧ st.running = [] := by
  cases a with
  | namespaceOf m phase =>
    obtain rfl := Option.some.inj ha
    exact ⟨.namespaceOf s m phase, rfl⟩
  | job =>
    simp only [Act.begin] at ha
    split at ha
    · contradiction
    · obtain rfl := Option.some.inj ha
      exact ⟨.of_modules rfl, rfl⟩
  | settle label c =>
    obtain ⟨p, -, rfl⟩ := Option.map_eq_some_iff.1 ha
    exact ⟨.settle s p c, rfl⟩
  | _ =>
    obtain rfl := Option.some.inj ha
    exact ⟨.refl s, rfl⟩

theorem Consults.synthetics {s s' : Store} (h : Consults s s') : s.SameSynthetics s' := by
  cases h with
  | throw kind message => exact .of_modules rfl
  | print line => exact .of_modules rfl
  | putOff call => exact (Store.SameSynthetics.settledPromise s (.ok ())).trans (.react _ _ _)

/-- Whoever has a question for the host does nothing to synthetic modules. -/
theorem Machine.doings_of_question? {M : Machine} {q : HostQuestion} (hq : M.question? = some q) :
    M.doings = [] := by
  unfold doings
  rw [control_of_question? hq]

theorem Doings.recalls {s₀ : Store} {m : ModuleId} {r₀ : Synthetic} {st : State} {D : List Doing}
    (hm : s₀.synthetic? m = some r₀) (h : Doings s₀ st D) : st.Recalls m r₀ D := by
  induction h with
  | start => exact ⟨hm, .before⟩
  | set x h ih => exact ih.set (Store.synthetic?_setExport _ _ _ _ m) rfl
  | turn h hturn ih =>
    cases hturn with
    | call a ha =>
      obtain ⟨hs, hrunning⟩ := Act.begin_synthetics ha
      exact ih.keep hs hrunning
    | step => exact ih.step
    | consult hq hs =>
      rw [State.doings, Machine.doings_of_question? hq]
      exact ih.keep hs.synthetics rfl
    | answer as hq =>
      rw [State.doings, Machine.doings_of_question? hq]
      refine ih.keep ?_ ?_
      · simp only [Machine.answer, State.store]
        split <;> exact .refl _
      · simp only [Machine.answer, State.running]
        split <;> rfl
    | @finish a M r hr =>
      obtain ⟨hcontrol, hframes⟩ := Machine.end_of_result? hr
      have hdoings : M.doings = [] := by
        unfold Machine.doings
        rw [hcontrol, hframes]
      rw [State.doings, hdoings]
      refine ih.keep (.refl _) ?_
      simp only [State.running, Machine.running, hframes, List.filterMap_nil]

/-! ## What is remembered -/

/-- A module that has been evaluated is over with at once. -/
theorem Store.startSynthetic_of_completion {s : Store} {m : ModuleId} {r : Synthetic} {c : Completion}
    (hr : s.synthetic? m = some r) (hc : r.completion = some c) : s.startSynthetic m = (.over c, s) := by
  simp only [startSynthetic, hr, hc]

/-- Whatever the machine is about to do, a synthetic module has the completion. -/
structure Machine.Reports (M : Machine) (m : ModuleId) (c : Completion) : Prop where
  /-- To evaluate it gives the completion and changes nothing. -/
  evaluated : M.control = .run (.synthetic m) → M.step = ⟨M.store, .give (.completion c), M.frames⟩
  /-- An evaluation that starts at the module gives a promise that is settled with the completion. -/
  promised : M.control = .run (.evaluate m) →
    ∃ p s, Machine.step^[3] M = ⟨s, .give (.promise p), M.frames⟩ ∧ s.outcome? p = some c
  /-- A walk that comes to the module, in either traversal and by a request of either phase, fails with its
  error. -/
  walked : ∀ e goal w y t q rest below, c = .error e → M.control = .run (.evaluation goal w) →
    w.frames = ⟨y, t, q :: rest⟩ :: below → M.store.imported? y q = some m →
      Machine.step^[3] M = apply M.frames (goal.fail M.store w.stack e)
  /-- To read from its deferred namespace throws its error. -/
  read : ∀ e n name, c = .error e → M.control = .run (.read n name) →
    M.store.forcedBy? n name = some m →
      Machine.step^[4] M = ⟨M.store, .give (.value (.error e)), M.frames⟩

theorem Machine.reports_of_completion {M : Machine} {m : ModuleId} {r : Synthetic} {c : Completion}
    (hr : M.store.synthetic? m = some r) (hc : r.completion = some c) : M.Reports m c := by
  have hsource : M.store.source? m = none := Store.source?_eq_none_of_synthetic? hr
  have hover : ∀ fs, (Machine.mk M.store (.run (.synthetic m)) fs).step =
      ⟨M.store, .give (.completion c), fs⟩ := fun fs ↦ by
    simp only [step, Task.advance, Store.startSynthetic_of_completion hr hc, apply]
  obtain ⟨s, control, fs⟩ := M
  refine ⟨?_, ?_, ?_, ?_⟩
  · rintro ⟨⟩
    exact hover fs
  · rintro ⟨⟩
    have hcall : (Machine.mk s (.run (.evaluate m)) fs).step =
        ⟨s, .run (.synthetic m), .syntheticPromise :: fs⟩ := by
      simp only [step, Task.advance, Store.evaluate, hsource, apply]
    refine ⟨(s.settledPromise c).1, (s.settledPromise c).2, ?_, ?_⟩
    · rw [Function.iterate_succ_apply, hcall, Function.iterate_succ_apply, hover]
      rfl
    · rcases c with e | ⟨⟩
      · exact congrArg (Option.bind · Promise.completion?) (s.promise?_addPromise_self (.rejected e))
      · exact congrArg (Option.bind · Promise.completion?) (s.promise?_addPromise_self .fulfilled)
  · rintro e goal w y t q rest below rfl ⟨⟩ hframes hq
    have hcall : (Machine.mk s (.run (.evaluation goal w)) fs).step =
        ⟨s, .run (.synthetic m), .passed goal { w with frames := ⟨y, t, rest⟩ :: below } :: fs⟩ := by
      have hadvance : w.advance s = (s, .synthetic m { w with frames := ⟨y, t, rest⟩ :: below }) := by
        unfold EvaluationWalk.advance
        rw [hframes]
        cases t <;> simp only [hq, EvaluationWalk.arrive, hsource]
      simp only [step, Task.advance, hadvance]
      rfl
    rw [Function.iterate_succ_apply, hcall, Function.iterate_succ_apply, hover]
    rfl
  · rintro e n name rfl ⟨⟩ hforced
    have hcall : (Machine.mk s (.run (.read n name)) fs).step =
        ⟨s, .run (.force m), .readForced n name :: fs⟩ := by
      simp only [step, Task.advance, Store.read, hforced, apply]
    have hforce : (Machine.mk s (.run (.force m)) (.readForced n name :: fs)).step =
        ⟨s, .run (.synthetic m), .readForced n name :: fs⟩ := by
      simp only [step, Task.advance, Store.forceModule, Store.force, hsource, apply]
    rw [Function.iterate_succ_apply, hcall, Function.iterate_succ_apply, hforce,
      Function.iterate_succ_apply, hover]
    rfl

/-- Whoever reads the variable gets the value, be it from the module or through a namespace with an export
that stands for the variable. -/
structure Store.Yields (s : Store) (m : ModuleId) (name : String) (v : Value) : Prop where
  own : s.bindingValue m name = (.ok v, s)
  shown : ∀ n r key, s.namespace? n = some r → s.hasExport n key = true →
    (r.deferred && key = "then") = false → s.resolveExport r.module key = .binding m (some name) →
      s.readExport n key = (.ok v, s)

theorem Store.yields_of_synthetic? {s : Store} {m : ModuleId} {r : Synthetic}
    (hr : s.synthetic? m = some r) (name : String) : s.Yields m name ((r.values.lookup name).getD .undefined) := by
  have hown : s.bindingValue m name = (.ok ((r.values.lookup name).getD .undefined), s) := by
    have himport : s.importBinding? m name = none := by
      simp only [importBinding?, source?_eq_none_of_synthetic? hr, Option.bind_none]
    have hpositive : followLimit = followLimit - 1 + 1 := rfl
    rw [bindingValue, hpositive, bindingValueFrom, himport]
    simp only [ownValue, hr]
  refine ⟨hown, fun n r' key hn hkey hthen hresolve ↦ ?_⟩
  have hread : ((r'.deferred && key = "then") || !s.hasExport n key) = false := by
    rw [hthen, hkey]
    rfl
  simp only [readExport, hn, hread, Bool.false_eq_true, if_false, hresolve]
  exact hown

/-- What is thrown when an export is set that a module does not have. -/
def Store.refuse (s : Store) (name : String) : ErrorId × Store :=
  s.throw .referenceError ("Synthetic module does not export '" ++ name ++ "'")

theorem Store.setExport_of_not_exported {s : Store} {m : ModuleId} {r : Synthetic} {name : String}
    (hr : s.synthetic? m = some r) (hname : r.exportNames.contains name = false) (v : Value) :
    s.setExport m name v = (.error (s.refuse name).1, (s.refuse name).2) := by
  rw [setExport, if_neg (by rw [hr, Option.any_some, hname]; exact Bool.false_ne_true)]
  rfl

/-- A step that sets what the module does not have ends the body with the error. -/
theorem Machine.step_of_not_exported {M : Machine} {b : Body} {x : Setting} {r : Synthetic}
    (hr : M.store.synthetic? x.module = some r) (hname : r.exportNames.contains x.name = false)
    (hcontrol : M.control = .run (.body b)) (hset : b.setting? M.store = some x) :
    ∃ s, M.store.SameSynthetics s ∧ M.step = apply M.frames
      (Body.give (s.refuse x.name).2 { b with steps := b.steps.tail } (.error (s.refuse x.name).1)) := by
  obtain ⟨s, control, fs⟩ := M
  obtain ⟨m, mode, steps⟩ := b
  obtain rfl : control = _ := hcontrol
  cases steps with
  | nil => exact nomatch hset
  | cons step rest =>
    obtain ⟨s', hs', htake⟩ := Body.take_of_sets (b := ⟨m, mode, rest⟩) hset
    refine ⟨s', hs', ?_⟩
    rw [Store.setExport_of_not_exported ((hs' x.module).trans hr) hname] at htake
    simp only [Machine.step, Task.advance, Body.advance, htake]
    rfl

/-- Whatever happens, and whatever the steps of a synthetic module do, they begin at most once. When they
have come to an end, every further evaluation reports how; if that was with an error, every walk that comes
to the module and every read of its deferred namespace fails with this very error. An export always holds
what it was set to last, and `undefined` before. To set what the module does not export throws a reference
error and changes no module. -/
theorem synthetic_modules_have_one_outcome {s₀ : Store} {m : ModuleId} {r₀ : Synthetic} {st : State}
    {D : List Doing} (hm : s₀.synthetic? m = some r₀) (hnew : r₀.IsNew) (h : Doings s₀ st D) :
    beginnings m D ≤ 1 ∧
    (∀ c ∈ endings m D, endings m D = [c] ∧ ∀ a M, st = .busy a M → M.Reports m c) ∧
    (∀ name, r₀.exportNames.contains name = true →
      st.store.Yields m name ((lastSet? m name D).getD .undefined)) ∧
    (∀ name v, r₀.exportNames.contains name = false →
      st.store.setExport m name v = (.error (st.store.refuse name).1, (st.store.refuse name).2)) ∧
    ∀ a M b x, st = .busy a M → M.control = .run (.body b) → b.setting? M.store = some x → x.module = m →
      r₀.exportNames.contains x.name = false →
        ∃ s, M.store.SameSynthetics s ∧ M.step = Machine.apply M.frames
          (Body.give (s.refuse x.name).2 { b with steps := b.steps.tail }
            (.error (s.refuse x.name).1)) := by
  obtain ⟨hmodule, hlife⟩ := h.recalls hm
  have hnames : (r₀.after m D).exportNames = r₀.exportNames := Synthetic.exportNames_after
  refine ⟨hlife.beginnings_le_one, fun c hc ↦ ?_, fun name hname ↦ ?_, fun name v hname ↦ ?_, ?_⟩
  · have hone : endings m D = [c] := hlife.eq_of_mem hc
    refine ⟨hone, fun a M hst ↦ ?_⟩
    subst hst
    exact Machine.reports_of_completion hmodule (by rw [Synthetic.completion_after, hone]; rfl)
  · have hyields := Store.yields_of_synthetic? hmodule name
    rwa [Synthetic.lookup_values_after hname, hnew.values, List.lookup_nil, Option.or_none] at hyields
  · exact Store.setExport_of_not_exported hmodule (hnames ▸ hname) v
  · rintro a M b x rfl hcontrol hset rfl hname
    exact Machine.step_of_not_exported hmodule (hnames ▸ hname) hcontrol hset

/-! ### A module whose steps evaluate it again -/

/-- Goes on for a number of steps, writing down what is done to synthetic modules. -/
def Machine.retell : Nat → Machine × List Doing → Machine × List Doing
  | 0, x => x
  | n + 1, (M, D) => retell n (M.step, M.doings ++ D)

theorem Doings.retell {s₀ : Store} {a : Act} (n : Nat) {x : Machine × List Doing}
    (h : Doings s₀ (.busy a x.1) x.2) :
    Doings s₀ (.busy a (Machine.retell n x).1) (Machine.retell n x).2 := by
  induction n generalizing x with
  | zero => exact h
  | succ n ih => exact ih (h.turn (.step trivial))

/-- The steps of the first module set its export, have it evaluated once more, set the export again and
fail. The second module imports it, and the third one does so with deferral. -/
def rehearsedGraph : Store where
  modules := #[
    { content := .synthetic
        { exportNames := ["x"]
          steps := some [.setOwn "x" (.value (.string "early")), .evaluate "synthetic",
            .setOwn "x" (.value (.string "late")), .throw .error "broken"] } },
    .scripted false [("synthetic", .evaluation, 0)] [],
    .scripted false [("synthetic", .defer, 0)] []]
  stage := { modules := [("synthetic", ⟨0⟩), ("user", ⟨1⟩), ("deferrer", ⟨2⟩)] }

/-- The call that evaluates the second module, when it has come to its end. -/
def rehearsedOnce : Machine × List Doing :=
  (Machine.start rehearsedGraph (.evaluate ⟨1⟩), []) |> Machine.retell 14

/-- The evaluation of the third module, when it is about to come to the first one. -/
def rehearsedTwice : Machine × List Doing :=
  (Machine.start rehearsedOnce.1.store (.evaluate ⟨2⟩), rehearsedOnce.2) |> Machine.retell 1

theorem synthetic_modules_have_one_outcome_rehearsedGraph :
    ∃ r₀, rehearsedGraph.synthetic? ⟨0⟩ = some r₀ ∧ r₀.IsNew ∧
      Doings rehearsedGraph (.busy (.evaluate ⟨2⟩) rehearsedTwice.1) rehearsedTwice.2 ∧
      beginnings ⟨0⟩ rehearsedTwice.2 = 1 ∧ endings ⟨0⟩ rehearsedTwice.2 = [.error ⟨0⟩] ∧
      rehearsedTwice.1.Reports ⟨0⟩ (.error ⟨0⟩) ∧
      rehearsedTwice.1.store.Yields ⟨0⟩ "x" (.string "late") ∧
      (rehearsedTwice.1.store.setExport ⟨0⟩ "y" .null).1 = .error (rehearsedTwice.1.store.refuse "y").1 := by
  have hnew : Synthetic.IsNew ((rehearsedGraph.synthetic? ⟨0⟩).get rfl) := ⟨rfl, rfl, rfl⟩
  have hfirst : Doings rehearsedGraph (.busy (.evaluate ⟨1⟩) rehearsedOnce.1) rehearsedOnce.2 :=
    Doings.retell 14 (x := (_, [])) (Doings.start.turn (.call (.evaluate ⟨1⟩) rfl))
  have hsecond : Doings rehearsedGraph (.busy (.evaluate ⟨2⟩) rehearsedTwice.1) rehearsedTwice.2 :=
    Doings.retell 1 (x := (_, rehearsedOnce.2))
      ((hfirst.turn (.finish (r := .promise ⟨0⟩) rfl)).turn (.call (.evaluate ⟨2⟩) rfl))
  have hend : endings ⟨0⟩ rehearsedTwice.2 = [.error ⟨0⟩] := rfl
  obtain ⟨-, hends, hyields, hrefused, -⟩ :=
    synthetic_modules_have_one_outcome (m := ⟨0⟩) rfl hnew hsecond
  exact ⟨_, rfl, hnew, hsecond, rfl, hend, (hends _ (hend ▸ List.mem_singleton_self _)).2 _ _ rfl,
    hyields "x" rfl, congrArg Prod.fst (hrefused "y" .null rfl)⟩

end EcmaModules
