import EcmaModules.Proofs.Placid
import EcmaModules.Proofs.Reading

/-!
# What becomes of synthetic modules

Three things are done to a synthetic module. Its steps are taken out when they start, their completion is
put in when they have run, and exports are set, which only bodies do and callers from outside. Whatever else
happens leaves the module as it is.
-/

namespace EcmaModules

namespace Store

variable {s s' : Store} {m d : ModuleId} {name : String}

/-! ## Stores with the same synthetic modules -/

/-- Synthetic modules are as they were. -/
def SameSynthetics (s s' : Store) : Prop := ∀ d, s'.synthetic? d = s.synthetic? d

namespace SameSynthetics

theorem refl (s : Store) : s.SameSynthetics s := fun _ ↦ rfl

theorem trans {t u : Store} (h : s.SameSynthetics t) (h' : t.SameSynthetics u) : s.SameSynthetics u :=
  fun d ↦ (h' d).trans (h d)

theorem of_modules (h : s'.modules = s.modules) : s.SameSynthetics s' := synthetic?_congr h

theorem modifySource (s : Store) (m : ModuleId) (f : SourceText → SourceText) :
    s.SameSynthetics (s.modifySource m f) := synthetic?_modifySource s m f

theorem settle (s : Store) (p : PromiseId) (c : Completion) : s.SameSynthetics (s.settle p c) :=
  .of_modules (modules_settle s p c)

theorem react (s : Store) (p : PromiseId) (r : Reaction) : s.SameSynthetics (s.react p r) :=
  .of_modules (modules_react s p r)

theorem namespaceOf (s : Store) (m : ModuleId) (phase : Phase) :
    s.SameSynthetics (s.namespaceOf m phase).2 := by
  unfold Store.namespaceOf
  split
  · exact .refl s
  · refine trans (t := { s with namespaces := _ }) (.of_modules rfl)
      (synthetic?_modifyModule_of_content fun r ↦ ?_)
    cases phase <;> rfl

theorem settledPromise (s : Store) (c : Completion) : s.SameSynthetics (s.settledPromise c).2 := by
  cases c <;> exact .of_modules rfl

theorem foldl {α : Type} {f : Store → α → Store} (hf : ∀ s a, SameSynthetics s (f s a)) (l : List α)
    (s : Store) : s.SameSynthetics (l.foldl f s) := by
  induction l generalizing s with
  | nil => exact .refl s
  | cons a l ih => exact (hf s a).trans (ih _)

/-! ### Reading -/

theorem variableValue (s : Store) (m : ModuleId) (name : String) :
    s.SameSynthetics (s.variableValue m name).2 := by
  unfold Store.variableValue
  split <;> exact .of_modules rfl

theorem bindingValueFrom (s : Store) (depth : Nat) (m : ModuleId) (name : String) :
    s.SameSynthetics (s.bindingValueFrom depth m name).2 := by
  induction depth generalizing m name with
  | zero => exact .refl s
  | succ depth ih =>
    unfold Store.bindingValueFrom
    split
    · exact .refl s
    · exact ih _ _
    · unfold Store.ownValue
      split
      · exact .refl s
      · exact variableValue s m name

theorem readExport (s : Store) (n : NamespaceId) (name : String) :
    s.SameSynthetics (s.readExport n name).2 := by
  unfold Store.readExport
  split
  · exact .refl s
  · split
    · exact .refl s
    · split
      · exact bindingValueFrom s _ _ _
      · exact namespaceOf s _ .evaluation
      · exact .refl s

theorem operandValue (s : Store) (o : Operand) : s.SameSynthetics (s.operandValue o).2 := by
  unfold Store.operandValue
  split
  · exact .refl s
  · split
    · exact namespaceOf s _ _
    · exact .refl s

theorem localValue (s : Store) (m : ModuleId) (name : String) :
    s.SameSynthetics (s.localValue m name).2 := by
  unfold Store.localValue
  split
  · exact variableValue s m name
  · split
    · exact .refl s
    · exact namespaceOf s _ _
    · exact (namespaceOf s _ .evaluation).trans (readExport _ _ _)

theorem localNamespace (s : Store) (m : ModuleId) (name : String) :
    s.SameSynthetics (s.localNamespace m name).2 := by
  have h := localValue s m name
  unfold Store.localNamespace
  split
  · next heq => rwa [heq] at h
  · next heq =>
    rw [heq] at h
    exact h.trans (.of_modules rfl)
  · next heq => rwa [heq] at h

theorem initVariable (s : Store) (m : ModuleId) (name : String) (v : Value) :
    s.SameSynthetics (s.initVariable m name v) :=
  synthetic?_modifyModule_of_content fun _ ↦ rfl

end SameSynthetics

end Store

/-! ## Bodies -/

/-- A value that is given to an export of a module. -/
structure Setting where
  module : ModuleId
  name : String
  value : Value

namespace Body

variable {s : Store} {b : Body}

/-- What the step sets. -/
def sets? (s : Store) (b : Body) : Step → Option Setting
  | .setExport name exported operand =>
    ((s.operandValue operand).2.named? name).map fun m ↦ ⟨m, exported, (s.operandValue operand).1⟩
  | .setOwn name operand => some ⟨b.module, name, (s.operandValue operand).1⟩
  | _ => none

theorem withNamespace_synthetics {name : String} {f : Store → NamespaceId → Store × StepResult}
    (hf : ∀ s n, Store.SameSynthetics s (f s n).1) : s.SameSynthetics (withNamespace s b name f).1 := by
  have h := Store.SameSynthetics.localNamespace s b.module name
  unfold withNamespace
  split
  · next heq =>
    rw [heq] at h
    exact h.trans (hf _ _)
  · next heq => rwa [heq] at h

theorem take_synthetics {step : Step} (hset : b.sets? s step = none) :
    s.SameSynthetics (take s b step).1 := by
  cases step with
  | init name operand =>
    exact (Store.SameSynthetics.operandValue s operand).trans (.initVariable _ _ _ _)
  | await =>
    simp only [take]
    split
    · exact .refl s
    · exact (Store.SameSynthetics.settledPromise s _).trans (.react _ _ _)
  | suspend label =>
    simp only [take]
    split
    · exact .refl s
    · exact Store.SameSynthetics.trans (.of_modules rfl) (.react _ _ _)
  | read space name => exact withNamespace_synthetics fun s _ ↦ .refl s
  | probe space name => exact withNamespace_synthetics fun s _ ↦ .refl s
  | has space name => exact withNamespace_synthetics fun s _ ↦ .of_modules rfl
  | keys space => exact withNamespace_synthetics fun s _ ↦ .of_modules rfl
  | binding name =>
    have h := Store.SameSynthetics.localValue s b.module name
    simp only [take]
    split
    · next heq =>
      rw [heq] at h
      exact h.trans (.of_modules rfl)
    · next heq => rwa [heq] at h
  | expose space => exact withNamespace_synthetics fun s _ ↦ .of_modules rfl
  | exposeModule name phase =>
    simp only [take]
    split
    · exact (Store.SameSynthetics.namespaceOf s _ phase).trans (.of_modules rfl)
    · exact .refl s
  | setExport name exported operand =>
    have hnone : (s.operandValue operand).2.named? name = none := Option.map_eq_none_iff.1 hset
    simp only [take, hnone]
    exact .operandValue s operand
  | setOwn name operand => contradiction
  | reject kind message =>
    simp only [take]
    split
    · exact Store.SameSynthetics.trans (.of_modules rfl) (.settle _ _ _)
    · exact .refl s
  | resolve =>
    simp only [take]
    split
    · exact .settle s _ _
    · exact .refl s
  | _ =>
    simp only [take]
    try split
    all_goals exact .of_modules rfl

/-- What a step sets is set, and whatever comes of that is what comes of the step. -/
theorem take_of_sets {step : Step} {x : Setting} (hset : b.sets? s step = some x) :
    ∃ s', s.SameSynthetics s' ∧
      take s b step = afterCompletion (s'.setExport x.module x.name x.value) := by
  cases step with
  | setExport name exported operand =>
    obtain ⟨m, hm, rfl⟩ := Option.map_eq_some_iff.1 hset
    refine ⟨_, .operandValue s operand, ?_⟩
    simp only [take, hm]
  | setOwn name operand =>
    obtain rfl := Option.some.inj hset
    exact ⟨_, .operandValue s operand, rfl⟩
  | _ => contradiction

theorem give_synthetics (s : Store) (b : Body) (c : Completion) : s.SameSynthetics (b.give s c).1 := by
  have hfinish : s.SameSynthetics (finish s b c).2 := by
    unfold finish
    split
    · exact .settle s _ _
    · exact .settle s _ _
    · exact .refl s
  exact hfinish

/-- What the next step sets. -/
def setting? (s : Store) (b : Body) : Option Setting :=
  b.steps.head?.bind fun step ↦ { b with steps := b.steps.tail }.sets? s step

theorem advance_synthetics (hset : b.setting? s = none) : s.SameSynthetics (b.advance s).1 := by
  obtain ⟨m, mode, steps⟩ := b
  cases steps with
  | nil => exact give_synthetics s _ _
  | cons step rest =>
    have htake := take_synthetics (b := ⟨m, mode, rest⟩) hset
    simp only [advance]
    split
    all_goals
      rename_i heq
      rw [heq] at htake
      first | exact htake | exact htake.trans (give_synthetics _ _ _)

end Body

namespace Setting

/-- The module when the value has been given to its export, if it is the module that is meant and has it. -/
def given (x : Setting) (d : ModuleId) (r : Synthetic) : Synthetic :=
  if d = x.module ∧ r.exportNames.contains x.name then { r with values := (x.name, x.value) :: r.values }
  else r

end Setting

namespace Store

variable {s s' : Store} {m d : ModuleId} {name : String}

theorem synthetic?_setExport (s : Store) (m : ModuleId) (name : String) (v : Value) (d : ModuleId) :
    (s.setExport m name v).2.synthetic? d = (s.synthetic? d).map (Setting.given ⟨m, name, v⟩ d) := by
  unfold setExport
  split
  · next hany =>
    rw [synthetic?_modifySynthetic]
    split
    · next hd =>
      subst hd
      rcases hr : s.synthetic? d with _ | r
      · rfl
      · rw [hr] at hany
        simp only [Option.any_some] at hany
        simp only [Option.map_some, Setting.given, hany, and_self, if_true]
    · next hd =>
      rcases s.synthetic? d with _ | r
      · rfl
      · simp [Setting.given, hd]
  · next hany =>
    refine (SameSynthetics.of_modules (s := s) rfl d).trans ?_
    rcases hr : s.synthetic? d with _ | r
    · rfl
    · rw [Option.map_some, Setting.given, if_neg]
      rintro ⟨rfl, hname⟩
      exact hany (by rw [hr]; exact hname)

end Store

/-! ## Linking and loading -/

namespace Store.SameSynthetics

variable {s s' : Store}

theorem setStatus (s : Store) (m : ModuleId) (st : Status) : s.SameSynthetics (s.setStatus m st) :=
  .modifySource s m _

theorem unresolved (s : Store) (r : Request) (name : String) (found : Resolution) :
    s.SameSynthetics (s.unresolved r name found).2 :=
  .of_modules rfl

theorem bindImport (s : Store) (target : ModuleId) (i : ImportEntry) :
    s.SameSynthetics (s.bindImport target i).2 := by
  unfold Store.bindImport
  split
  · exact .namespaceOf s _ _
  · split
    · exact .namespaceOf s _ _
    · exact .refl s
    · exact .unresolved s _ _ _

theorem bindImports (s : Store) (m : ModuleId) (is : List ImportEntry)
    (env : List (String × ImportBinding)) : s.SameSynthetics (s.bindImports m is env).2 := by
  induction is generalizing s env with
  | nil => exact .refl s
  | cons i rest ih =>
    unfold Store.bindImports
    split
    · exact ih s env
    · next target _ =>
      have hbind := bindImport s target i
      split
      all_goals
        rename_i heq
        rw [heq] at hbind
        first | exact hbind.trans (ih _ _) | exact hbind

theorem initializeEnvironment (s : Store) (m : ModuleId) :
    s.SameSynthetics (s.initializeEnvironment m).2 := by
  unfold Store.initializeEnvironment
  split
  · exact .refl s
  · next r _ =>
    split
    · exact .unresolved s _ _ _
    · have hbind := bindImports s m r.entries.imports []
      split
      · next heq => rwa [heq] at hbind
      · next heq =>
        rw [heq] at hbind
        exact (hbind.trans (.modifySource _ _ _)).trans (synthetic?_modifyModule_of_content fun _ ↦ rfl)

theorem enterLinking (s : Store) (w : LinkWalk) (m : ModuleId) : s.SameSynthetics (w.enter s m).1 := by
  unfold LinkWalk.enter
  split
  · exact (setStatus s m _).trans (.modifySource _ _ _)
  · exact .refl s

theorem leaveLinking (s : Store) (m required : ModuleId) :
    s.SameSynthetics (LinkWalk.leave s m required) := by
  unfold LinkWalk.leave
  split
  · split
    · exact .modifySource s _ _
    · exact .refl s
  · exact .refl s

theorem popComponent (s : Store) (root : ModuleId) (stack : List ModuleId) :
    s.SameSynthetics (LinkWalk.popComponent s root stack).1 := by
  induction stack generalizing s with
  | nil => exact .refl s
  | cons m stack ih =>
    unfold LinkWalk.popComponent
    dsimp only
    split
    · exact setStatus s m _
    · exact (setStatus s m _).trans (ih _)

theorem concludeLinking (s : Store) (w : LinkWalk) (m : ModuleId) :
    s.SameSynthetics (w.conclude s m).1 := by
  have hpop : s.SameSynthetics
      (if s.isComponentRoot m then LinkWalk.popComponent s m w.stack else (s, w.stack)).1 := by
    split
    · exact popComponent s m _
    · exact .refl s
  unfold LinkWalk.conclude
  dsimp only
  split
  · exact hpop.trans (leaveLinking _ _ _)
  · exact hpop

theorem advanceLinking (s : Store) (w : LinkWalk) : s.SameSynthetics (w.advance s).1 := by
  unfold LinkWalk.advance
  split
  · exact .refl s
  · next m _ _ =>
    have h := initializeEnvironment s m
    split
    all_goals
      rename_i heq
      rwa [heq] at h
  · dsimp only
    split
    · exact .refl s
    · next required _ =>
      have h := fun w ↦ enterLinking s w required
      split
      · next heq => exact congrArg Prod.fst heq ▸ h _
      · next heq =>
        have hsame : s.SameSynthetics _ := congrArg Prod.fst heq ▸ h _
        exact hsame.trans (leaveLinking _ _ _)

theorem nextLinking (s : Store) (step : LinkStep) : s.SameSynthetics (step.next s).1 := by
  cases step with
  | failed e stack => exact foldl (fun s m ↦ setStatus s m .unlinked) stack s
  | _ => exact .refl s

theorem startLinking (s : Store) (m : ModuleId) : s.SameSynthetics (s.startLinking m).2 := by
  unfold Store.startLinking
  split
  · exact .of_modules rfl
  · exact .of_modules rfl
  · have h := enterLinking s {} m
    split
    all_goals
      rename_i heq
      rwa [heq] at h

theorem finishDescent (s : Store) (l : LoadingId) : s.SameSynthetics (s.finishDescent l) := by
  unfold Store.finishDescent
  split
  · exact .refl s
  · dsimp only
    split
    · refine trans ?_ (.settle _ _ _)
      exact trans (t := (s.modifyLoading l _).modifyLoading l _) (.of_modules rfl)
        (foldl (fun s m ↦ modifySource s m _) _ _)
    · exact .of_modules rfl

theorem fromLoading (s : Store) (l : LoadingId) (m : ModuleId) :
    s.SameSynthetics (LoadWalk.from s l m).1 := by
  unfold LoadWalk.from
  split
  · exact .of_modules rfl
  · exact finishDescent s l

theorem advanceLoading (s : Store) (w : LoadWalk) : s.SameSynthetics (w.advance s).1 := by
  unfold LoadWalk.advance
  split
  · exact .refl s
  · split
    · exact .refl s
    · exact finishDescent s _
    · dsimp only
      split
      · split
        · exact .of_modules rfl
        · exact finishDescent s _
      · exact .of_modules rfl

theorem checkAnswer (s : Store) (a : LoadAnswer) : s.SameSynthetics (s.checkAnswer a).2 := by
  unfold Store.checkAnswer
  split
  · dsimp only
    split
    · unfold Store.recordLoaded
      split
      · split <;> exact .of_modules rfl
      · exact trans (t := s.takeOutstanding a.call) (.of_modules rfl) (.modifySource _ _ _)
    · exact .of_modules rfl
  · exact .of_modules rfl

theorem takeAnswer (s : Store) (a : LoadAnswer) : s.SameSynthetics (s.takeAnswer a).1 := by
  have h := checkAnswer s a
  unfold Store.takeAnswer
  dsimp only
  split
  · exact h
  · split
    · exact h.trans (fromLoading _ _ _)
    · unfold Store.failLoading
      split
      · exact h
      · exact h.trans (trans (t := (s.checkAnswer a).2.modifyLoading _ _) (.of_modules rfl) (.settle _ _ _))

theorem startLoading (s : Store) (m : ModuleId) (hostDefined : Option String) :
    s.SameSynthetics (s.startLoading m hostDefined).2.2 :=
  trans (t := { s.newPromise.2 with loadings := _ }) (.of_modules rfl) (fromLoading _ _ _)

/-! ### Evaluating, and jobs -/

theorem runWatch (s : Store) (w : Watch) (c : Completion) : s.SameSynthetics (w.run s c).2 := by
  refine of_modules ?_
  simp only [Watch.run]
  cases w.chain <;> cases w.resolve <;> cases w.settle <;>
    simp [modules_settle, modules_react, Store.print, Store.resolve]

theorem rejectModule (s : Store) (m : ModuleId) (e : ErrorId) : s.SameSynthetics (s.rejectModule m e) :=
  fun d ↦ s.synthetic?_rejectFrom d _ m e

theorem runJob (s : Store) (j : Job) : s.SameSynthetics (j.run s).1 := by
  unfold Job.run
  split
  · next m _ _ => exact fun d ↦ s.synthetic?_fulfillModule m d
  · exact rejectModule s _ _
  · exact .refl s
  · exact .settle s _ _
  · exact .refl s
  · exact runWatch s _ _
  · exact .of_modules rfl
  · exact .of_modules rfl

theorem nextEvaluation (s : Store) (goal : EvaluationGoal) (step : EvaluationStep) :
    s.SameSynthetics (step.next s goal).1 :=
  fun d ↦ step.synthetic?_next s goal d

theorem startEvaluation (s : Store) (m : ModuleId) : s.SameSynthetics (EvaluationWalk.start s m).1 :=
  fun d ↦ EvaluationWalk.synthetic?_arrive s {} d m .executing

theorem evaluate (s : Store) (m : ModuleId) : s.SameSynthetics (s.evaluate m).1 := by
  unfold Store.evaluate
  split
  · exact .refl s
  · dsimp only
    split
    · exact .refl s
    · have hcapability : s.SameSynthetics (s.newCapability (s.evaluationRoot m)).2 :=
        fun d ↦ s.synthetic?_newCapability d _
      exact (hcapability.trans (startEvaluation _ _)).trans (nextEvaluation _ _ _)

theorem force (s : Store) (m : ModuleId) : s.SameSynthetics (s.force m).2 := by
  unfold Store.force
  split
  · exact .refl s
  · split
    · split <;> exact .refl s
    · exact .refl s
    · exact .refl s
    · exact .of_modules rfl
    · exact .of_modules rfl
    · exact .of_modules rfl
    · split <;> exact .refl s
    · split <;> exact .refl s
    · split <;> exact .refl s
    · split <;> exact .refl s

theorem forceModule (s : Store) (m : ModuleId) : s.SameSynthetics (s.forceModule m).1 := by
  have h := force s m
  unfold Store.forceModule
  split
  · next heq => rwa [heq] at h
  · next heq => rwa [heq] at h
  · next heq =>
    rw [heq] at h
    exact (h.trans (startEvaluation _ _)).trans (nextEvaluation _ _ _)

theorem read (s : Store) (n : NamespaceId) (name : String) : s.SameSynthetics (s.read n name).1 := by
  unfold Store.read
  split
  · exact .refl s
  · exact readExport s n name

end Store.SameSynthetics

/-! ## Steps of the machine -/

open Store (SameSynthetics)

/-- A step of a task that neither starts the steps of a synthetic module nor sets an export. -/
theorem Task.advance_synthetics (s : Store) {t : Task} (hstart : ∀ m, t ≠ .synthetic m)
    (hset : ∀ b, t = .body b → b.setting? s = none) : s.SameSynthetics (t.advance s).1 := by
  cases t with
  | body b => exact Body.advance_synthetics (hset b rfl)
  | read n name => exact .read s n name
  | force m => exact .forceModule s m
  | synthetic m => exact absurd rfl (hstart m)
  | link m =>
    have h := SameSynthetics.startLinking s m
    simp only [advance]
    split
    all_goals
      next heq =>
      rw [heq] at h
      exact h
  | linking w => exact (SameSynthetics.advanceLinking s w).trans (.nextLinking _ _)
  | evaluate m => exact .evaluate s m
  | evaluation goal w =>
    exact SameSynthetics.trans (fun d ↦ EvaluationWalk.synthetic?_advance s w d)
      (.nextEvaluation _ goal _)
  | free ms =>
    rcases ms with _ | ⟨m, rest⟩
    · exact .refl s
    · have h : s.SameSynthetics (s.continueFree m).2 := fun d ↦ s.synthetic?_continueFree d m
      simp only [advance]
      split
      all_goals
        next heq =>
        rw [heq] at h
        exact h
  | load m hostDefined =>
    simp only [advance]
    split
    · exact .of_modules rfl
    · exact .startLoading s m hostDefined
  | loading w =>
    refine (SameSynthetics.advanceLoading s w).trans ?_
    simp only [advance]
    cases (w.advance s).2 <;> exact .refl _
  | ask q => exact .refl s
  | answers as =>
    rcases as with _ | ⟨a, rest⟩
    · exact .refl s
    · have h := SameSynthetics.takeAnswer s a
      simp only [advance]
      split
      all_goals
        next heq =>
        rw [heq] at h
        exact h
  | job j => exact .runJob s j

/-- What a frame does other than remembering how the steps of a synthetic module ended. -/
theorem Frame.resume_synthetics (s : Store) (r : Result) {f : Frame} (hf : ∀ m, f ≠ .syntheticSteps m) :
    s.SameSynthetics (f.resume s r).1 := by
  cases f with
  | bodyRead b label probe =>
    simp only [resume]
    split
    · exact .of_modules rfl
    · exact .of_modules rfl
    · exact Body.give_synthetics s b _
    · exact .refl s
  | readForced n name =>
    simp only [resume]
    split
    · exact .readExport s n name
    · exact .refl s
  | syntheticSteps m => exact absurd rfl (hf m)
  | setUp m w =>
    simp only [resume]
    split
    · exact .concludeLinking s w m
    · exact .nextLinking s _
  | executed goal m capability w =>
    exact SameSynthetics.trans (fun d ↦ EvaluationWalk.synthetic?_executed s w d m capability _)
      (.nextEvaluation _ goal _)
  | passed goal w =>
    exact SameSynthetics.trans (fun d ↦ EvaluationWalk.synthetic?_passed s w d _)
      (.nextEvaluation _ goal _)
  | syntheticPromise => exact .settledPromise s _
  | freed m capability rest => exact fun d ↦ s.synthetic?_finishFree d m capability _
  | _ =>
    simp only [resume]
    try split
    all_goals exact .of_modules rfl

end EcmaModules
