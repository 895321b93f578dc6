import EcmaModules.Proofs.Ascent
import Mathlib

/-!
# Calls end

Every call comes back, unless the host has to be asked: linking, evaluating and reading, and what
goes on in a job. Bodies are finite, but they call each other: a body reads from a module whose
evaluation runs other bodies, and it may have modules linked whose environments are set up by bodies
again.

Each step has a price, and what is still to be paid gets less with every step. What a module can
still cause in evaluation is paid from the height of its status: a module is entered no more than
twice, and the steps of a synthetic module are taken once. Linking is no such resource, since modules
that could not be linked may be linked again. But a walk that links holds the modules that it has
entered until it ends, so a walk on top of it has fewer modules to enter. The price of linking is a
function of their number.
-/

namespace EcmaModules

/-! ## What modules may still cause -/

/-- How often a module with the status can still be entered by walks that evaluate. -/
def Status.height (st : Status) : Nat :=
  if st.rank < 4 then 2 else if st.rank < 7 then 1 else 0

theorem Status.height_anti {a b : Status} (h : a ≤ b) : b.height ≤ a.height := by
  rw [le_iff] at h
  unfold height
  split_ifs <;> omega

/-- Whoever enters a module takes it down. -/
theorem Status.height_lt {a : Status} {t : Traversal} (h : a < t.status) :
    t.status.height < a.height := by
  rw [← not_le, le_iff, not_le] at h
  have hrank : t.status.rank = 4 ∨ t.status.rank = 7 := by cases t <;> decide
  unfold height
  split_ifs <;> omega

namespace Store

/-- The steps that a synthetic module has still. -/
def steps? (s : Store) (m : ModuleId) : Option (List Step) := (s.synthetic? m).bind (·.steps)

/-- How often the module can still be entered, or its steps be taken. -/
def height (s : Store) (m : ModuleId) : Nat :=
  match s.source? m with
  | some r => r.status.height
  | none => if (s.steps? m).isSome then 1 else 0

/-- What the modules at the first places can still cause. -/
def energy (s : Store) (n : Nat) : Nat := ∑ i ∈ Finset.range n, s.height ⟨i⟩

/-- Synthetic modules have the steps that they had, or none any more. -/
def Spends (s s' : Store) : Prop := ∀ m, s'.steps? m = s.steps? m ∨ s'.steps? m = none

/-- Modules have the texts that they had, and cause no more than before. -/
structure Wears (s s' : Store) : Prop where
  each : s.Each (fun r r' ↦ r'.script = r.script ∧ r'.status.height ≤ r.status.height) s'
  spends : s.Spends s'

variable {s s' s'' : Store} {n l : Nat} {m : ModuleId}

theorem Spends.refl (s : Store) : s.Spends s := fun _ ↦ .inl rfl

theorem Spends.trans (h : s.Spends s') (h' : s'.Spends s'') : s.Spends s'' := fun m ↦ by
  rcases h' m with heq | hnone
  · rw [heq]
    exact h m
  · exact .inr hnone

theorem Spends.of_synthetic? (h : ∀ m, s'.synthetic? m = s.synthetic? m) : s.Spends s' := fun m ↦
  .inl (by rw [steps?, h, steps?])

theorem Spends.of_same (h : Same s s') : s.Spends s' := fun m ↦ .inl <| by
  have hm := h.progress m
  unfold progress at hm
  unfold steps?
  revert hm
  cases s.synthetic? m <;> cases s'.synthetic? m <;> simp
  exact fun h _ ↦ h

theorem Wears.of_ascends (h : s.Ascends s') (hs : s.Spends s') : s.Wears s' :=
  ⟨h.mono fun _ _ h ↦ ⟨h.script, Status.height_anti h.rises⟩, hs⟩

theorem Wears.of_relapses (h : s.Relapses s') (hs : s.Spends s') : s.Wears s' := by
  refine ⟨h.mono fun _ _ h ↦ ⟨h.script, ?_⟩, hs⟩
  rcases h.status with heq | ⟨hl, hu⟩
  · rw [heq]
  · rw [hl, hu]
    decide

theorem Wears.height_le (h : s.Wears s') (m : ModuleId) : s'.height m ≤ s.height m := by
  have hm := h.each m
  have hspends := h.spends m
  unfold height
  revert hm
  cases s.source? m <;> cases s'.source? m <;> rintro ⟨⟩
  · rcases hspends with heq | hnone
    · simp [heq]
    · simp [hnone]
  · exact (by assumption : _ ∧ _).2

theorem Wears.energy_le (h : s.Wears s') (n : Nat) : s'.energy n ≤ s.energy n :=
  Finset.sum_le_sum fun i _ ↦ h.height_le ⟨i⟩

theorem Wears.energy_lt (h : s.Wears s') (hm : m.index < n) (hlt : s'.height m < s.height m) :
    s'.energy n < s.energy n :=
  Finset.sum_lt_sum (fun i _ ↦ h.height_le ⟨i⟩) ⟨m.index, Finset.mem_range.2 hm, hlt⟩

/-- The modules are at the first places, and no text is longer than a bound. -/
structure Within (s : Store) (n l : Nat) : Prop where
  source : ∀ m r, s.source? m = some r → m.index < n ∧ r.entries.requests.length ≤ l ∧
    r.body.length ≤ l ∧ r.setup.length ≤ l
  steps : ∀ m steps, s.steps? m = some steps → m.index < n ∧ steps.length ≤ l

theorem Within.wears (h : s.Within n l) (hs : s.Wears s') : s'.Within n l := by
  refine ⟨fun m r' hr' ↦ ?_, fun m steps hm ↦ ?_⟩
  · obtain ⟨r, hr, hscript, -⟩ := hs.each.before hr'
    simp only [SourceText.script, Prod.mk.injEq] at hscript
    obtain ⟨he, hb, hst⟩ := hscript
    rw [he, hb, hst]
    exact h.source m r hr
  · rcases hs.spends m with heq | hnone
    · exact h.steps m steps (heq ▸ hm)
    · exact nomatch hnone.symm.trans hm

theorem Within.body (h : s.Within n l) (m : ModuleId) :
    (((s.source? m).map (·.body)).getD []).length ≤ l := by
  rcases hm : s.source? m with _ | r
  · exact Nat.zero_le _
  · exact (h.source m r hm).2.2.1

theorem Within.setup (h : s.Within n l) (m : ModuleId) :
    (((s.source? m).map (·.setup)).getD []).length ≤ l := by
  rcases hm : s.source? m with _ | r
  · exact Nat.zero_le _
  · exact (h.source m r hm).2.2.2

/-- The length of the text of a module. -/
def textLength (s : Store) (m : ModuleId) : Nat :=
  (match s.source? m with
    | some r => r.entries.requests.length + r.body.length + r.setup.length
    | none => 0) + ((s.steps? m).getD []).length

theorem exists_within (s : Store) : ∃ n l, s.Within n l := by
  have hle : ∀ m : ModuleId, m.index < s.modules.size →
      s.textLength m ≤ ∑ i ∈ Finset.range s.modules.size, s.textLength ⟨i⟩ := fun m hm ↦
    Finset.single_le_sum (f := fun i ↦ s.textLength ⟨i⟩) (fun _ _ ↦ Nat.zero_le _)
      (Finset.mem_range.2 hm)
  have hplace : ∀ m M, s.module? m = some M → m.index < s.modules.size := fun m M h ↦
    (Array.getElem?_eq_some_iff.1 h).1
  refine ⟨s.modules.size, ∑ i ∈ Finset.range s.modules.size, s.textLength ⟨i⟩,
    fun m r hr ↦ ?_, fun m steps hm ↦ ?_⟩
  · have hm : m.index < s.modules.size := by
      unfold source? at hr
      split at hr
      · next hM => exact hplace m _ hM
      · exact nomatch hr
    have hsum := hle m hm
    have htext : s.textLength m = r.entries.requests.length + r.body.length + r.setup.length +
        ((s.steps? m).getD []).length := by rw [textLength, hr]
    exact ⟨hm, by omega, by omega, by omega⟩
  · have hplaced : m.index < s.modules.size := by
      unfold steps? synthetic? at hm
      split at hm
      · next hM => exact hplace m _ hM
      · exact nomatch hm
    have hsum := hle m hplaced
    rw [textLength, hm, Option.getD_some] at hsum
    exact ⟨hplaced, by omega⟩

/-! ## What walks that link may still enter -/

/-- A walk that links may still come to enter the module: it is not being linked, or only by walks
above, which may fail. -/
def isLoose (s : Store) (above : List ModuleId) (m : ModuleId) : Bool :=
  above.contains m || (s.status? m).any fun st ↦ Nat.blt st.rank 2

/-- The number of modules that a walk that links may still enter. -/
def loose (s : Store) (n : Nat) (above : List ModuleId) : Nat :=
  ((Finset.range n).filter fun i ↦ s.isLoose above ⟨i⟩ = true).card

/-- There are no more such modules than before. -/
def Tightens (s : Store) (above : List ModuleId) (s' : Store) (above' : List ModuleId) : Prop :=
  ∀ m, s'.isLoose above' m = true → s.isLoose above m = true

theorem isLoose_iff {above : List ModuleId} :
    s.isLoose above m = true ↔
      m ∈ above ∨ ∃ r, s.source? m = some r ∧ r.status.rank < 2 := by
  simp only [isLoose, Bool.or_eq_true, List.contains_iff_mem, Option.any_eq_true, status?,
    Option.map_eq_some_iff, Nat.blt_eq]
  constructor
  · rintro (h | ⟨_, ⟨r, hr, rfl⟩, hlt⟩)
    · exact .inl h
    · exact .inr ⟨r, hr, hlt⟩
  · rintro (h | ⟨r, hr, hlt⟩)
    · exact .inl h
    · exact .inr ⟨_, ⟨r, hr, rfl⟩, hlt⟩

theorem loose_le (s : Store) (n : Nat) (above : List ModuleId) : s.loose n above ≤ n :=
  (Finset.card_filter_le _ _).trans (Finset.card_range n).le

theorem Tightens.append {above above' : List ModuleId} (h : s.Tightens above s' above')
    (below : List ModuleId) : s.Tightens (above ++ below) s' (above' ++ below) := fun m hm ↦ by
  rw [isLoose_iff, List.mem_append] at hm ⊢
  rcases hm with (hm | hm) | hr
  · exact (isLoose_iff.1 (h m (isLoose_iff.2 (.inl hm)))).imp_left .inl
  · exact .inl (.inr hm)
  · exact (isLoose_iff.1 (h m (isLoose_iff.2 (.inr hr)))).imp_left .inl

theorem Tightens.loose_le {above above' : List ModuleId} (h : s.Tightens above s' above') (n : Nat) :
    s'.loose n above' ≤ s.loose n above :=
  Finset.card_le_card (Finset.monotone_filter_right _ fun i _ hi ↦ h ⟨i⟩ hi)

theorem Tightens.loose_lt {above above' : List ModuleId} (h : s.Tightens above s' above')
    (hm : m.index < n) (hs : s.isLoose above m = true) (hs' : s'.isLoose above' m ≠ true) :
    s'.loose n above' < s.loose n above := by
  refine Finset.card_lt_card ⟨Finset.monotone_filter_right _ fun i _ hi ↦ h ⟨i⟩ hi, fun hsub ↦ hs' ?_⟩
  exact (Finset.mem_filter.1 (hsub (Finset.mem_filter.2 ⟨Finset.mem_range.2 hm, hs⟩))).2

theorem Tightens.of_ascends (h : s.Ascends s') (above : List ModuleId) :
    s.Tightens above s' above := fun m hm ↦ by
  rw [isLoose_iff] at hm ⊢
  refine hm.imp_right fun ⟨r', hr', hlt⟩ ↦ ?_
  obtain ⟨r, hr, hrel⟩ := h.before hr'
  exact ⟨r, hr, (Status.le_iff.1 hrel.rises).trans_lt hlt⟩

theorem Tightens.subset {above above' : List ModuleId} (h : above' ⊆ above) :
    s.Tightens above s above' := fun m hm ↦ by
  rw [isLoose_iff] at hm ⊢
  exact hm.imp_left (h ·)

theorem Tightens.trans {above above' above'' : List ModuleId} (h : s.Tightens above s' above')
    (h' : s'.Tightens above' s'' above'') : s.Tightens above s'' above'' := fun m hm ↦ h m (h' m hm)

/-! ## Evaluation and synthetic modules -/

section

variable (s : Store) (m : ModuleId)

theorem synthetic?_of_modules (h : s'.modules = s.modules) : s'.synthetic? m = s.synthetic? m := by
  simp only [synthetic?, module?, h]

@[simp] theorem synthetic?_settle (p : PromiseId) (c : Completion) :
    (s.settle p c).synthetic? m = s.synthetic? m := synthetic?_of_modules s m (modules_settle s p c)

theorem synthetic?_foldl {α : Type} {f : Store → α → Store}
    (hf : ∀ s a, (f s a).synthetic? m = s.synthetic? m) (l : List α) :
    (l.foldl f s).synthetic? m = s.synthetic? m := by
  induction l generalizing s with
  | nil => rfl
  | cons a l ih => exact (ih (f s a)).trans (hf s a)

@[simp] theorem synthetic?_setStatus (d : ModuleId) (st : Status) :
    (s.setStatus d st).synthetic? m = s.synthetic? m := synthetic?_modifySource s d _ m

@[simp] theorem synthetic?_settleAsync (d : ModuleId) :
    (s.settleAsync d).synthetic? m = s.synthetic? m := synthetic?_modifySource s d _ m

@[simp] theorem synthetic?_startAsync (d : ModuleId) :
    (s.startAsync d).2.synthetic? m = s.synthetic? m :=
  (synthetic?_of_modules _ m (modules_react _ _ _)).trans (synthetic?_modifySource s d _ m)

@[simp] theorem synthetic?_newCapability (d : ModuleId) :
    (s.newCapability d).2.synthetic? m = s.synthetic? m :=
  synthetic?_modifySource s.newPromise.2 d _ m

@[simp] theorem synthetic?_resolveCapability (d : ModuleId) :
    (s.resolveCapability d).synthetic? m = s.synthetic? m := by
  unfold resolveCapability
  split
  · exact synthetic?_settle s m _ _
  · rfl

@[simp] theorem synthetic?_rejectCapability (d : ModuleId) (e : ErrorId) :
    (s.rejectCapability d e).synthetic? m = s.synthetic? m := by
  unfold rejectCapability
  split
  · exact synthetic?_settle s m _ _
  · rfl

@[simp] theorem synthetic?_rejectFrom (depth : Nat) (d : ModuleId) (e : ErrorId) :
    (s.rejectFrom depth d e).synthetic? m = s.synthetic? m := by
  induction depth generalizing s d with
  | zero => rfl
  | succ depth ih =>
    unfold rejectFrom
    split
    · rfl
    · simp only [synthetic?_rejectCapability]
      exact (synthetic?_foldl _ m (fun s p ↦ ih s p) _).trans (synthetic?_modifySource s d _ m)

@[simp] theorem synthetic?_failModules (stack : List ModuleId) (e : ErrorId) :
    (s.failModules stack e).synthetic? m = s.synthetic? m :=
  synthetic?_foldl s m (fun s d ↦ synthetic?_modifySource s d _ m) stack

theorem synthetic?_continueFree (d : ModuleId) :
    (s.continueFree d).2.synthetic? m = s.synthetic? m := by
  unfold continueFree
  split
  · rfl
  · split
    · rfl
    · split
      · exact synthetic?_startAsync s m d
      · split
        · simp
        · rfl

theorem synthetic?_finishFree (d : ModuleId) (capability : Option PromiseId) (c : Completion) :
    (s.finishFree d capability c).synthetic? m = s.synthetic? m := by
  rcases capability with _ | p <;> rcases c with e | ⟨⟩ <;>
    simp [finishFree, rejectModule, reject]

end

end Store

namespace EvaluationWalk

variable (s : Store) (w : EvaluationWalk) (m d : ModuleId)

@[simp] theorem synthetic?_await (required : ModuleId) :
    (await s d required).synthetic? m = s.synthetic? m := by
  unfold await
  split
  · split <;> simp [Store.synthetic?_modifySource]
  · rfl

@[simp] theorem synthetic?_leave (required : ModuleId) :
    (leave s d required).2.synthetic? m = s.synthetic? m := by
  unfold leave
  split
  · split
    · simp [Store.lowerAncestor, Store.synthetic?_modifySource]
    · split
      · exact synthetic?_await s m d required
      · dsimp only
        split
        · rfl
        · exact synthetic?_await s m d _
  · rfl

@[simp] theorem synthetic?_back : (back s w d).1.synthetic? m = s.synthetic? m := by
  unfold back
  split
  · rfl
  · next f _ _ =>
    have h := synthetic?_leave s m f.module d
    split <;> next heq => rw [heq] at h; exact h

@[simp] theorem synthetic?_popExecuted (stack : List ModuleId) :
    (popExecuted s d stack).1.synthetic? m = s.synthetic? m := by
  induction stack generalizing s with
  | nil => rfl
  | cons x stack ih =>
    rw [popExecuted]
    split
    · exact Store.synthetic?_modifySource s x _ m
    · exact (ih _).trans (Store.synthetic?_modifySource s x _ m)

@[simp] theorem synthetic?_popSearched (stack : List ModuleId) :
    (popSearched s d stack).1.synthetic? m = s.synthetic? m := by
  induction stack generalizing s with
  | nil => rfl
  | cons x stack ih =>
    rw [popSearched]
    split
    · exact Store.synthetic?_modifySource s x _ m
    · exact (ih _).trans (Store.synthetic?_modifySource s x _ m)

@[simp] theorem synthetic?_concludeExecuted :
    (concludeExecuted s w d).1.synthetic? m = s.synthetic? m := by
  unfold concludeExecuted
  split <;> simp

@[simp] theorem synthetic?_concludeSearched :
    (concludeSearched s w d).1.synthetic? m = s.synthetic? m := by
  rw [concludeSearched_eq]
  split <;> simp [Store.holdSearched, Store.synthetic?_modifySource]

theorem synthetic?_executed (capability : Option PromiseId) (c : Completion) :
    (w.executed s d capability c).1.synthetic? m = s.synthetic? m := by
  unfold executed
  split <;> simp [Store.reject]

theorem synthetic?_passed (c : Completion) : (w.passed s c).1.synthetic? m = s.synthetic? m := by
  unfold passed
  split <;> rfl

theorem synthetic?_arrive (t : Traversal) : (arrive s w d t).1.synthetic? m = s.synthetic? m := by
  unfold arrive
  split
  · rfl
  · split
    · rfl
    · split <;> simp only [synthetic?_back]
      unfold detach
      split
      · exact Store.synthetic?_modifySource s d _ m
      · rfl
    · exact Store.synthetic?_modifySource s d _ m

theorem synthetic?_advance : (w.advance s).1.synthetic? m = s.synthetic? m := by
  unfold advance
  split
  · rfl
  · unfold execute
    split
    · rfl
    · split
      · simp [Store.synthetic?_modifySource]
      · split <;> simp
  · exact synthetic?_concludeSearched s _ m _
  · dsimp only
    split
    · exact synthetic?_arrive s _ m _ _
    · rfl

end EvaluationWalk

theorem EvaluationStep.synthetic?_next (s : Store) (goal : EvaluationGoal) (step : EvaluationStep)
    (m : ModuleId) : (step.next s goal).1.synthetic? m = s.synthetic? m := by
  cases step with
  | done => exact Store.synthetic?_of_modules s m (Store.modules_finish s goal)
  | failed e stack =>
    exact (Store.synthetic?_of_modules _ m (Store.modules_fail s stack e goal)).trans
      (Store.synthetic?_failModules s m stack e)
  | _ => rfl

/-! ## Prices -/

/-- The price of what a walk that links may still come to, by the number of modules that it may
enter, when no text is longer than the bound. -/
def linkPrice (l : Nat) : Nat → Nat
  | 0 => 0
  | v + 1 => linkPrice l v + (l + (l + 1) * (linkPrice l v + 10) + 2)

/-- The price of a step of a body. It may have modules linked. -/
def stepPrice (l v : Nat) : Nat := linkPrice l v + 10

/-- The price of the longest body. -/
def bodyPrice (l v : Nat) : Nat := (l + 1) * stepPrice l v

/-- What a walk pays for entering a module, or for starting the steps of a synthetic one. -/
def entryPrice (l n : Nat) : Nat := 4 * l + bodyPrice l n + 3

/-- The price of a walk that links. -/
def LinkWalk.price (l v : Nat) (w : LinkWalk) : Nat :=
  linkPrice l v + 1 + (w.frames.map fun f ↦ f.requests.length + bodyPrice l v + 2).sum

/-- The price of a walk that evaluates. -/
def EvaluationWalk.price (l v : Nat) (w : EvaluationWalk) : Nat :=
  1 + (w.frames.map fun f ↦ 4 * f.requests.length + bodyPrice l v + 2).sum

/-- The price of a task, by the number of modules that can be linked. -/
def Task.price (l v : Nat) : Task → Nat
  | .body b => (b.steps.length + 1) * stepPrice l v
  | .read _ _ => 8
  | .force _ => 6
  | .synthetic _ => 2
  | .link _ => linkPrice l v + 3
  | .linking w => w.price l v
  | .evaluate _ => 6
  | .evaluation _ w => w.price l v
  | .free ms => 1 + ms.length * (bodyPrice l v + 2)
  | _ => 0

/-- The price of a frame, by the number of modules that can be linked. -/
def Frame.price (l v : Nat) : Frame → Nat
  | .bodyRead b _ _ | .bodyLink b _ | .bodyEvaluate b _ => (b.steps.length + 1) * stepPrice l v + 1
  | .readForced _ _ | .syntheticSteps _ | .syntheticPromise => 1
  | .setUp _ w => w.price l v + 1
  | .executed _ _ _ w | .passed _ w => w.price l v + 1
  | .freed _ _ rest => 2 + rest.length * (bodyPrice l v + 2)
  | _ => 0

/-- The modules on the stacks of the walks that link and come next. -/
def Next.linkStack (n : Next) : List ModuleId := n.linkTours.flatMap (·.stack)

/-- The price of what comes next. -/
def Next.price (l n : Nat) (s : Store) : Next → Nat
  | .goto t => t.price l (s.loose n [])
  | .call t f => t.price l (s.loose n []) + f.price l (s.loose n (t.linkTours.flatMap (·.stack)))
  | .give _ => 0

/-- The price of frames. A frame can count on what walks above it hold. -/
def Frame.prices (l n : Nat) (s : Store) : List ModuleId → List Frame → Nat
  | _, [] => 0
  | above, f :: fs =>
    f.price l (s.loose n above) + prices l n s (above ++ f.linkTours.flatMap (·.stack)) fs

/-- What is still to be paid. -/
def Machine.price (l n : Nat) (M : Machine) : Nat :=
  entryPrice l n * M.store.energy n + M.current.price l n M.store +
    Frame.prices l n M.store M.current.linkStack M.frames

section

variable {l n v v' : Nat}

theorem linkPrice_mono (l : Nat) : Monotone (linkPrice l) :=
  monotone_nat_of_le_succ fun _ ↦ Nat.le_add_right _ _

theorem stepPrice_mono (h : v' ≤ v) : stepPrice l v' ≤ stepPrice l v :=
  Nat.add_le_add_right (linkPrice_mono l h) 10

theorem bodyPrice_mono (h : v' ≤ v) : bodyPrice l v' ≤ bodyPrice l v :=
  Nat.mul_le_mul_left _ (stepPrice_mono h)

theorem bodyPrice_of_length {steps : List Step} (h : steps.length ≤ l) :
    (steps.length + 1) * stepPrice l v ≤ bodyPrice l v :=
  Nat.mul_le_mul_right _ (Nat.add_le_add_right h 1)

theorem linkPrice_succ (l v : Nat) :
    linkPrice l (v + 1) = linkPrice l v + l + bodyPrice l v + 2 := by
  simp only [linkPrice, bodyPrice, stepPrice]
  omega

theorem LinkWalk.price_mono (w : LinkWalk) (h : v' ≤ v) : w.price l v' ≤ w.price l v := by
  refine Nat.add_le_add (Nat.add_le_add_right (linkPrice_mono l h) 1) (List.sum_le_sum fun f _ ↦ ?_)
  have := bodyPrice_mono (l := l) h
  omega

theorem EvaluationWalk.price_mono (w : EvaluationWalk) (h : v' ≤ v) :
    w.price l v' ≤ w.price l v := by
  refine Nat.add_le_add_left (List.sum_le_sum fun f _ ↦ ?_) 1
  have := bodyPrice_mono (l := l) h
  omega

theorem Task.price_mono (t : Task) (h : v' ≤ v) : t.price l v' ≤ t.price l v := by
  cases t with
  | body b => exact Nat.mul_le_mul_left _ (stepPrice_mono h)
  | link m => exact Nat.add_le_add_right (linkPrice_mono l h) 3
  | linking w => exact w.price_mono h
  | evaluation goal w => exact w.price_mono h
  | free ms =>
    exact Nat.add_le_add_left (Nat.mul_le_mul_left _ (Nat.add_le_add_right (bodyPrice_mono h) 2)) 1
  | _ => exact le_rfl

theorem Frame.price_mono (f : Frame) (h : v' ≤ v) : f.price l v' ≤ f.price l v := by
  cases f with
  | bodyRead b _ _ => exact Nat.add_le_add_right (Nat.mul_le_mul_left _ (stepPrice_mono h)) 1
  | bodyLink b _ => exact Nat.add_le_add_right (Nat.mul_le_mul_left _ (stepPrice_mono h)) 1
  | bodyEvaluate b _ => exact Nat.add_le_add_right (Nat.mul_le_mul_left _ (stepPrice_mono h)) 1
  | setUp m w => exact Nat.add_le_add_right (w.price_mono h) 1
  | executed goal m capability w => exact Nat.add_le_add_right (w.price_mono h) 1
  | passed goal w => exact Nat.add_le_add_right (w.price_mono h) 1
  | freed m capability rest =>
    exact Nat.add_le_add_left (Nat.mul_le_mul_left _ (Nat.add_le_add_right (bodyPrice_mono h) 2)) 2
  | _ => exact le_rfl

theorem Frame.prices_le {s s' : Store} {above above' : List ModuleId}
    (h : s.Tightens above s' above') (fs : List Frame) :
    prices l n s' above' fs ≤ prices l n s above fs := by
  induction fs generalizing above above' with
  | nil => exact le_rfl
  | cons f fs ih => exact Nat.add_le_add (f.price_mono (h.loose_le n)) (ih (h.append _))

end

/-- A step by which less is left to be paid than the price given. -/
structure Store.Pays (s : Store) (l n : Nat) (price : Nat) (stack : List ModuleId)
    (x : Store × Next) : Prop where
  wears : s.Wears x.1
  tightens : s.Tightens stack x.1 x.2.linkStack
  pays : entryPrice l n * x.1.energy n + x.2.price l n x.1 < entryPrice l n * s.energy n + price

/-- A step that nothing is entered by. -/
theorem Store.Pays.of_price {s : Store} {l n price : Nat} {stack : List ModuleId}
    {x : Store × Next} (hw : s.Wears x.1) (ht : s.Tightens stack x.1 x.2.linkStack)
    (h : x.2.price l n x.1 < price) : s.Pays l n price stack x :=
  ⟨hw, ht, Nat.add_lt_add_of_le_of_lt (Nat.mul_le_mul_left _ (hw.energy_le n)) h⟩

/-- A step that something is entered by. -/
theorem Store.Pays.of_entry {s : Store} {l n price : Nat} {stack : List ModuleId}
    {x : Store × Next} (hw : s.Wears x.1) (ht : s.Tightens stack x.1 x.2.linkStack)
    (he : x.1.energy n < s.energy n) (h : x.2.price l n x.1 < entryPrice l n + price) :
    s.Pays l n price stack x := by
  refine ⟨hw, ht, ?_⟩
  have := Nat.mul_le_mul_left (entryPrice l n) he
  rw [Nat.succ_eq_add_one, Nat.mul_add, Nat.mul_one] at this
  omega

theorem Machine.price_apply {l n : Nat} {s : Store} {x : Next} {fs : List Frame} :
    (apply fs (s, x)).price l n = entryPrice l n * s.energy n + x.price l n s +
      Frame.prices l n s x.linkStack fs := by
  cases x with
  | goto t => rfl
  | give r => rfl
  | call t f =>
    simp only [price, apply, current, Next.price, Frame.prices, Next.linkStack, Next.linkTours,
      List.flatMap_append]
    omega

/-! ## Steps of walks that evaluate -/

/-- The price of what a walk comes to next. -/
def EvaluationStep.price (l v : Nat) : EvaluationStep → Nat
  | .done | .failed _ _ => 0
  | .go w => w.price l v
  | .synthetic _ w => w.price l v + 3
  | .execute _ _ w => bodyPrice l v + w.price l v + 1

namespace EvaluationWalk

variable {l v : Nat} {s : Store} {w : EvaluationWalk} {m d : ModuleId} {t : Traversal}

theorem one_le_price (w : EvaluationWalk) : 1 ≤ w.price l v := Nat.le_add_right _ _

theorem price_cons (f : EvaluationFrame) (rest : List EvaluationFrame) (hf : w.frames = f :: rest) :
    w.price l v = ({ w with frames := rest } : EvaluationWalk).price l v +
      (4 * f.requests.length + bodyPrice l v + 2) := by
  simp only [price, hf, List.map_cons, List.sum_cons]
  omega

theorem back_price : (back s w d).2.price l v ≤ w.price l v := by
  unfold back
  split
  · exact le_rfl
  · split
    · exact le_rfl
    · exact Nat.zero_le _

theorem concludeExecuted_price : (concludeExecuted s w m).2.price l v ≤ w.price l v := by
  unfold concludeExecuted
  split
  · exact back_price (w := { w with stack := _ })
  · exact back_price

theorem concludeSearched_price : (concludeSearched s w m).2.price l v ≤ w.price l v := by
  rw [concludeSearched_eq]
  split
  · exact back_price (w := { w with stack := _ })
  · exact back_price

theorem execute_price : (execute s w m).2.price l v ≤ bodyPrice l v + w.price l v + 1 := by
  unfold execute
  split
  · exact Nat.le_add_right_of_le (Nat.le_add_left _ _)
  · split
    · exact concludeExecuted_price.trans (Nat.le_add_right_of_le (Nat.le_add_left _ _))
    · split <;> exact le_rfl

/-- A walk that comes to a module enters it, or has less left than before, up to the price of a
synthetic module. -/
theorem arrive_price (s : Store) (w : EvaluationWalk) (m : ModuleId) (t : Traversal) :
    (∃ r t', s.source? m = some r ∧ r.arrival t = .enter t' ∧
      arrive s w m t = ((push s w m t').1, .go (push s w m t').2)) ∨
      (arrive s w m t).2.price l v ≤ w.price l v + 3 := by
  unfold arrive
  split
  · exact .inr le_rfl
  · next r hr =>
    split
    · exact .inr (Nat.zero_le _)
    · exact .inr (back_price.trans (Nat.le_add_right _ _))
    · next t' ha => exact .inl ⟨r, t', hr, ha, rfl⟩

/-- A step of a walk enters a module or takes the walk closer to its end. -/
theorem advance_price (s : Store) (w : EvaluationWalk) :
    (∃ w' m r t t', w'.price l v ≤ w.price l v ∧ s.source? m = some r ∧ r.arrival t = .enter t' ∧
      w.advance s = ((push s w' m t').1, .go (push s w' m t').2)) ∨
      (w.advance s).2.price l v < w.price l v := by
  unfold advance
  split
  · exact .inr w.one_le_price
  · next m rest hf =>
    have := execute_price (l := l) (v := v) (s := s) (w := { w with frames := rest }) (m := m)
    have := price_cons (l := l) (v := v) _ _ hf
    exact .inr (by omega)
  · next m rest hf =>
    have := concludeSearched_price (l := l) (v := v) (s := s) (w := { w with frames := rest }) (m := m)
    have := price_cons (l := l) (v := v) _ _ hf
    exact .inr (by omega)
  · next m t r requests rest hf =>
    have hw := price_cons (l := l) (v := v) _ _ hf
    have hw' := price_cons (l := l) (v := v) (w := { w with frames := ⟨m, t, requests⟩ :: rest }) _ _ rfl
    simp only [List.length_cons] at hw hw'
    dsimp only
    split
    · next d _ =>
      rcases arrive_price (l := l) (v := v) s { w with frames := ⟨m, t, requests⟩ :: rest } d
        (nextTraversal t r) with ⟨q, t', hq, ha, heq⟩ | hle
      · exact .inl ⟨_, d, q, _, t', by omega, hq, ha, heq⟩
      · exact .inr (by omega)
    · exact .inr (by simp only [EvaluationStep.price]; omega)

theorem executed_price (capability : Option PromiseId) (c : Completion) :
    (w.executed s m capability c).2.price l v ≤ w.price l v := by
  unfold executed
  split
  · exact concludeExecuted_price
  · exact concludeExecuted_price
  · exact Nat.zero_le _

theorem passed_price (c : Completion) : (w.passed s c).2.price l v ≤ w.price l v := by
  unfold passed
  split
  · exact le_rfl
  · exact Nat.zero_le _

end EvaluationWalk

namespace EvaluationStep

variable {l n v v' : Nat} {s : Store}

theorem price_mono (step : EvaluationStep) (h : v' ≤ v) : step.price l v' ≤ step.price l v := by
  cases step with
  | go w => exact w.price_mono h
  | synthetic m w => exact Nat.add_le_add_right (w.price_mono h) 3
  | execute m capability w =>
    exact Nat.add_le_add_right (Nat.add_le_add (bodyPrice_mono h) (w.price_mono h)) 1
  | _ => exact le_rfl

/-- The price of what comes next after a step of a walk. -/
theorem next_price (goal : EvaluationGoal) (step : EvaluationStep)
    (hs : (step.next s goal).1.Within n l) :
    (step.next s goal).2.price l n (step.next s goal).1 ≤
      step.price l ((step.next s goal).1.loose n []) := by
  cases step with
  | done => cases goal <;> exact le_rfl
  | failed e left => cases goal <;> exact le_rfl
  | go w => exact le_rfl
  | synthetic m w =>
    refine le_of_eq ?_
    simp only [EvaluationStep.next, Next.price, Task.price, Frame.price, Task.linkTours,
      List.flatMap_nil, price]
    omega
  | execute m capability w =>
    have hs : s.Within n l := hs
    have := bodyPrice_of_length (v := s.loose n []) (hs.body m)
    simp only [EvaluationStep.next, Store.execution, Next.price, Task.price, Frame.price,
      Task.linkTours, List.flatMap_nil, price]
    omega

theorem linkStack_next (goal : EvaluationGoal) (step : EvaluationStep) :
    (step.next s goal).2.linkStack = [] := by
  cases step <;> first | rfl | (cases goal <;> rfl)

end EvaluationStep

namespace Store.Pays

variable {l n price : Nat} {s : Store} {goal : EvaluationGoal}

/-- A change that takes modules further and is nothing to synthetic modules. -/
theorem of_ascends {x : Store × Next} (h : s.Ascends x.1) (hs : s.Spends x.1)
    (hl : x.2.linkStack = []) (hprice : x.2.price l n x.1 < price) : s.Pays l n price [] x :=
  .of_price (.of_ascends h hs) (hl ▸ .of_ascends h []) hprice

/-- A step that comes after a change. -/
theorem after {s' : Store} {x : Store × Next} (h : s.Ascends s') (hs : s.Spends s')
    (hx : s'.Pays l n price [] x) : s.Pays l n price [] x := by
  have hw : s.Wears s' := .of_ascends h hs
  refine ⟨⟨.trans (fun _ _ _ h h' ↦ ⟨h'.1.trans h.1, h'.2.trans h.2⟩) hw.each hx.wears.each,
    hs.trans hx.wears.spends⟩, (Tightens.of_ascends h []).trans hx.tightens, hx.pays.trans_le ?_⟩
  exact Nat.add_le_add_right (Nat.mul_le_mul_left _ (hw.energy_le n)) _

/-- A step of a walk that enters no module. -/
theorem walk {y : Store × EvaluationStep} (hs : s.Within n l) (h : s.Treads y.1)
    (hy : ∀ m, y.1.synthetic? m = s.synthetic? m)
    (hprice : y.2.price l (s.loose n []) < price) : s.Pays l n price [] (y.2.next y.1 goal) := by
  have hascends : s.Ascends (y.2.next y.1 goal).1 :=
    (Ascends.of_treads h).trans (EvaluationStep.next_ascends y.1 goal y.2)
  have hspends : s.Spends (y.2.next y.1 goal).1 := .of_synthetic? fun m ↦
    (EvaluationStep.synthetic?_next y.1 goal y.2 m).trans (hy m)
  refine .of_ascends hascends hspends (EvaluationStep.linkStack_next goal y.2) ?_
  refine (EvaluationStep.next_price goal y.2 (hs.wears (.of_ascends hascends hspends))).trans_lt ?_
  exact (y.2.price_mono ((Tightens.of_ascends hascends []).loose_le n)).trans_lt hprice

/-- A step of a walk that enters a module. -/
theorem enter {w : EvaluationWalk} {m : ModuleId} {r : SourceText} {t t' : Traversal}
    (hs : s.Within n l) (hr : s.source? m = some r) (ha : r.arrival t = .enter t')
    (hprice : w.price l (s.loose n []) ≤ price) :
    s.Pays l n price [] ((EvaluationWalk.push s w m t').1,
      .goto (.evaluation goal (EvaluationWalk.push s w m t').2)) := by
  have hascends : s.Ascends (EvaluationWalk.push s w m t').1 :=
    Each.modifySource .refl s m fun q hq ↦ by
      obtain rfl := Option.some.inj (hr.symm.trans hq)
      exact .of_treads (.entered ha w.index)
  have hspends : s.Spends (EvaluationWalk.push s w m t').1 :=
    .of_synthetic? fun x ↦ synthetic?_modifySource s m _ x
  have hw : s.Wears (EvaluationWalk.push s w m t').1 := .of_ascends hascends hspends
  obtain ⟨hplace, hrequests, -⟩ := hs.source m r hr
  refine .of_entry hw (.of_ascends hascends []) (hw.energy_lt hplace ?_) ?_
  · have hr' : (EvaluationWalk.push s w m t').1.source? m = some (r.entered t' w.index) := by
      simp only [EvaluationWalk.push, source?_modifySource, if_true, hr, Option.map_some]
    simp only [height, hr, hr']
    exact Status.height_lt (r.lt_of_arrival ha)
  · generalize hv : (EvaluationWalk.push s w m t').1.loose n [] = v
    have hle : v ≤ s.loose n [] := hv ▸ (Tightens.of_ascends hascends []).loose_le n
    have hpush := EvaluationWalk.price_cons (l := l) (v := v)
      (w := (EvaluationWalk.push s w m t').2) ⟨m, t', (s.entries m).requests⟩ w.frames rfl
    have hsame : ({ (EvaluationWalk.push s w m t').2 with frames := w.frames } :
        EvaluationWalk).price l v = w.price l v := rfl
    have hentries : s.entries m = r.entries := by simp [entries, hr]
    have := w.price_mono (l := l) hle
    have := bodyPrice_mono (l := l) (hle.trans (s.loose_le n []))
    rw [hsame, hentries] at hpush
    simp only [Next.price, Task.price, hv, hpush, entryPrice]
    omega

/-- A walk that starts. -/
theorem start (hs : s.Within n l) (root : ModuleId) (goal : EvaluationGoal) :
    s.Pays l n 6 [] ((EvaluationWalk.start s root).2.next (EvaluationWalk.start s root).1 goal) := by
  rcases EvaluationWalk.arrive_price (l := l) (v := s.loose n []) s {} root .executing with
    ⟨r, t', hr, ha, heq⟩ | hle
  · rw [EvaluationWalk.start, heq]
    exact enter hs hr ha (Nat.le_of_ble_eq_true rfl)
  · refine walk hs (.arrive s {} root .executing)
      (fun m ↦ EvaluationWalk.synthetic?_arrive s {} m root .executing) (hle.trans_lt ?_)
    exact Nat.lt_of_le_of_lt (le_refl 4) (by decide)

end Store.Pays

/-! ## Steps of walks that link -/

namespace LinkWalk

variable {l n v : Nat} {s : Store} {w : LinkWalk}

theorem price_cons (f : LinkFrame) (rest : List LinkFrame) (hf : w.frames = f :: rest) :
    w.price l v = ({ w with frames := rest } : LinkWalk).price l v +
      (f.requests.length + bodyPrice l v + 2) := by
  simp only [price, hf, List.map_cons, List.sum_cons]
  omega

theorem enter_spends (s : Store) (w : LinkWalk) (m : ModuleId) : s.Spends (enter s w m).1 := by
  unfold enter
  split
  · exact .of_synthetic? fun x ↦ (Store.synthetic?_modifySource _ m _ x).trans
      (Store.synthetic?_setStatus s x m .linking)
  · exact .refl s

/-- A walk that enters a module has one less to enter. -/
theorem enter_pays (hs : s.Within n l) {m : ModuleId} {s' : Store} {w' : LinkWalk}
    (h : enter s w m = (s', some w')) :
    s.Tightens w.stack s' w'.stack ∧ w'.price l (s'.loose n []) ≤ w.price l (s.loose n []) := by
  have hascends := enter_ascends s w m
  have hunlinked : s.status? m = some .unlinked := by
    by_contra hne
    rw [enter, if_neg hne] at h
    cases h
  obtain ⟨r, hr, hst⟩ := Store.source?_of_status? hunlinked
  obtain ⟨hplace, hrequests, -⟩ := hs.source m r hr
  have hentered : (enter s w m).1.status? m = some .linking := by
    rw [enter, if_pos hunlinked]
    simp [Store.setDfsIndex, Store.setStatus, Store.status?, Store.source?_modifySource, hr]
  have hloose : s.isLoose [] m = true := Store.isLoose_iff.2 (.inr ⟨r, hr, by rw [hst]; decide⟩)
  rw [h] at hascends hentered
  have hfewer : s'.loose n [] < s.loose n [] := by
    refine (Store.Tightens.of_ascends hascends []).loose_lt hplace hloose fun hloose' ↦ ?_
    obtain ⟨r', hr', hlt⟩ := (Store.isLoose_iff.1 hloose').resolve_left List.not_mem_nil
    rw [Store.status?, hr', Option.map_some, Option.some.injEq] at hentered
    rw [hentered] at hlt
    exact absurd hlt (by decide)
  rw [enter, if_pos hunlinked] at h
  obtain ⟨-, hw'⟩ := Prod.mk.inj h
  obtain rfl := Option.some.inj hw'
  refine ⟨fun x hx ↦ ?_, ?_⟩
  · rcases Store.isLoose_iff.1 hx with hmem | hrest
    · rcases List.mem_cons.1 hmem with rfl | hmem
      · exact Store.isLoose_iff.2 (.inr ⟨r, hr, by rw [hst]; decide⟩)
      · exact Store.isLoose_iff.2 (.inl hmem)
    · exact Store.Tightens.of_ascends hascends _ x (Store.isLoose_iff.2 (.inr hrest))
  · generalize s'.loose n [] = v' at hfewer ⊢
    generalize s.loose n [] = v at hfewer ⊢
    have hentries : s.entries m = r.entries := by simp [Store.entries, hr]
    have hsum := w.price_mono (l := l) hfewer.le
    have hlink := (linkPrice_succ l v').symm.le.trans (linkPrice_mono l hfewer)
    have hbelow : (w.frames.map fun f ↦ f.requests.length + bodyPrice l v' + 2).sum ≤
        (w.frames.map fun f ↦ f.requests.length + bodyPrice l v + 2).sum :=
      List.sum_le_sum fun f _ ↦ by
        have := bodyPrice_mono (l := l) hfewer.le
        omega
    simp only [price, List.map_cons, List.sum_cons, hentries]
    omega

theorem popComponent_subset (s : Store) (root : ModuleId) (stack : List ModuleId) :
    (popComponent s root stack).2 ⊆ stack := by
  induction stack generalizing s with
  | nil => exact fun _ h ↦ h
  | cons m stack ih =>
    rw [popComponent]
    split
    · exact List.subset_cons_self m stack
    · exact List.Subset.trans (ih _) (List.subset_cons_self m stack)

theorem conclude_subset (s : Store) (w : LinkWalk) (m : ModuleId) :
    (conclude s w m).2.stack ⊆ w.stack := by
  unfold conclude
  split
  next s' stack heq =>
  split at heq
  · obtain rfl : _ = stack := congrArg Prod.snd heq
    exact popComponent_subset s m w.stack
  · obtain rfl : _ = stack := congrArg Prod.snd heq
    exact fun _ h ↦ h

theorem conclude_price (s : Store) (w : LinkWalk) (m : ModuleId) :
    (conclude s w m).2.price l v = w.price l v := rfl

/-- Modules whose linking failed can be linked again; they were held by the walk before. -/
theorem unlink_tightens {s' : Store} (h : ∀ x, s'.status? x = s.status? x) (stack : List ModuleId) :
    s.Tightens stack (s'.unlink stack) [] := fun x hx ↦ by
  obtain ⟨r, hr, hlt⟩ := (Store.isLoose_iff.1 hx).resolve_left List.not_mem_nil
  by_cases hmem : x ∈ stack
  · exact Store.isLoose_iff.2 (.inl hmem)
  · have hsame : s.status? x = some r.status := by
      rw [← h, ← Store.status?_foldl_setStatus hmem s']
      exact congrArg (Option.map (·.status)) hr
    obtain ⟨q, hq, hst⟩ := Store.source?_of_status? hsame
    exact Store.isLoose_iff.2 (.inr ⟨q, hq, hst ▸ hlt⟩)

/-- A step of a walk that links. -/
theorem advance_pays {L : List LinkTour} (hs : s.Within n l) (hl : Linkage s (w.tour :: L)) :
    s.Pays l n (w.price l (s.loose n [])) w.stack
      ((w.advance s).2.next (w.advance s).1) := by
  have hlinking : ∀ x ∈ w.stack, ∀ r, s.source? x = some r → r.status = .linking := fun x hx r hr ↦ by
    have := hl.linking _ List.mem_cons_self x hx
    simpa [Store.status?, hr] using this
  have hspends : s.Spends ((w.advance s).2.next (w.advance s).1).1 :=
    .of_same (LinkWalk.advance_inside hl).1.same
  have hwears : s.Wears ((w.advance s).2.next (w.advance s).1).1 :=
    (advance_climbs hlinking).elim (.of_ascends · hspends) (.of_relapses ·.2 hspends)
  suffices h : s.Tightens w.stack ((w.advance s).2.next (w.advance s).1).1
        ((w.advance s).2.next (w.advance s).1).2.linkStack ∧
      ((w.advance s).2.next (w.advance s).1).2.price l n
        ((w.advance s).2.next (w.advance s).1).1 < w.price l (s.loose n []) from
    .of_price hwears h.1 h.2
  have hpos : ∀ v, 0 < w.price l v := fun v ↦ by
    unfold price
    omega
  clear hspends hwears
  unfold advance
  split
  · exact ⟨.subset (List.nil_subset _), hpos _⟩
  · next m rest hf =>
    have hapart := s.initializeEnvironment_furnishing m
    split
    · next s' heq =>
      replace hapart : Furnishing s s' := by rwa [heq] at hapart
      have hascends := (Store.Loads.of_furnishing hapart).ascends
      refine ⟨(Store.Tightens.of_ascends hascends w.stack).trans (.subset (by
        simp [Next.linkStack, LinkStep.next, Next.linkTours, Store.setUp, Task.linkTours,
          Frame.linkTours, tourAt])), ?_⟩
      have hwithin := hs.wears (.of_ascends hascends (.of_same hapart.level.toSame))
      have hle := (Store.Tightens.of_ascends hascends []).loose_le n
      have h1 := bodyPrice_of_length (v := s'.loose n []) (hwithin.setup m)
      have h2 := bodyPrice_mono (l := l) hle
      have h3 := LinkWalk.price_mono (l := l) { w with frames := rest } hle
      have h4 := price_cons (l := l) (v := s.loose n []) _ _ hf
      simp only [LinkStep.next, Store.setUp, Next.price, Task.price, Frame.price, Task.linkTours,
        List.flatMap_nil]
      omega
    · next e s' heq =>
      rw [heq] at hapart
      exact ⟨unlink_tightens hapart.level.status w.stack, hpos _⟩
  · next m r requests rest hf =>
    have h1 := price_cons (l := l) (v := s.loose n []) _ _ hf
    have h2 := price_cons (l := l) (v := s.loose n [])
      (w := { w with frames := ⟨m, requests⟩ :: rest }) _ _ rfl
    simp only [List.length_cons] at h1 h2
    have hstack : ∀ s w', (LinkStep.next s (.go w')).2.linkStack = w'.stack := fun s w' ↦
      List.append_nil _
    dsimp only
    split
    · refine ⟨.subset (by rw [hstack]; exact List.Subset.refl _), ?_⟩
      simp only [LinkStep.next, Next.price, Task.price]
      omega
    · next d _ =>
      split
      · next s' w' heq =>
        obtain ⟨ht, hp⟩ := enter_pays hs heq
        refine ⟨by rwa [hstack], ?_⟩
        simp only [LinkStep.next, Next.price, Task.price]
        omega
      · next s' heq =>
        have hascends : s.Ascends (leave s' m d) := by
          have := enter_ascends s { w with frames := ⟨m, requests⟩ :: rest } d
          rw [heq] at this
          exact this.trans (leave_ascends s' m d)
        refine ⟨by rw [hstack]; exact .of_ascends hascends _, ?_⟩
        have hle := (Store.Tightens.of_ascends hascends []).loose_le n
        have := LinkWalk.price_mono (l := l) { w with frames := ⟨m, requests⟩ :: rest } hle
        simp only [LinkStep.next, Next.price, Task.price]
        omega

end LinkWalk

/-! ## Tasks and frames -/

/-- The task has the host asked, or is a job. -/
def Task.isOutward (t : Task) : Bool :=
  t.isLoad || !t.hand.isEmpty

/-- What comes next has the host asked, or is a job. -/
def Next.isOutward (n : Next) : Bool :=
  n.isLoad || !n.hand.isEmpty

theorem Next.Still.isOutward {n : Next} (h : n.Still) (hl : n.isLoad = false) :
    n.isOutward = false := by
  rw [Next.isOutward, hl, h.hand]
  rfl

theorem EvaluationStep.isOutward_next (s : Store) (goal : EvaluationGoal) (step : EvaluationStep) :
    (step.next s goal).2.isOutward = false := by
  cases step <;> cases goal <;> rfl

theorem Task.isOutward_advance {s : Store} {t : Task} {L : List LinkTour}
    (hl : Linkage s (t.linkTours ++ L)) (ht : t.isOutward = false) :
    (t.advance s).2.isOutward = false := by
  have hload : t.isLoad = false := (Bool.or_eq_false_iff.1 ht).1
  cases hw : t.isWalk with
  | false =>
    exact (Task.advance_quiet s hw).2.1.toStill.isOutward (Task.advance_isLoad s hw hload)
  | true =>
    cases t with
    | force m =>
      simp only [advance, Store.forceModule]
      split
      · rfl
      · rfl
      · exact EvaluationStep.isOutward_next _ _ _
    | evaluate m =>
      simp only [advance, Store.evaluate]
      split
      · rfl
      · split
        · rfl
        · exact EvaluationStep.isOutward_next _ _ _
    | evaluation goal w => exact EvaluationStep.isOutward_next _ _ _
    | free ms =>
      rcases ms with _ | ⟨m, rest⟩
      · rfl
      · simp only [advance]
        split <;> rfl
    | job j => contradiction
    | link m =>
      obtain ⟨-, hstill, hload, -⟩ := Task.link_inside hl m
      exact hstill.isOutward hload
    | linking w =>
      obtain ⟨hstill, hload⟩ := LinkStep.next_still (w.advance s).1 (w.advance s).2
      exact hstill.isOutward hload
    | _ => contradiction

theorem Frame.isOutward_resume {s : Store} {r : Result} {f : Frame} {L : List LinkTour}
    (hl : Linkage s (f.linkTours ++ L)) (hf : f.isLoad = false) :
    (f.resume s r).2.isOutward = false := by
  cases hw : f.isWalk with
  | false =>
    exact (Frame.resume_quiet s r hw).2.1.toStill.isOutward (Frame.resume_isLoad s r hw hf)
  | true =>
    cases f with
    | executed goal m capability w => exact EvaluationStep.isOutward_next _ _ _
    | passed goal w => exact EvaluationStep.isOutward_next _ _ _
    | freed m capability rest => rfl
    | setUp m w =>
      obtain ⟨-, hstill, hload, -⟩ := Frame.setUp_inside hl r
      exact hstill.isOutward hload
    | _ => exact nomatch hw

namespace Store

variable {l n : Nat} {s : Store}

theorem source?_of_steps? {m : ModuleId} {steps : List Step} (h : s.steps? m = some steps) :
    s.source? m = none := by
  unfold steps? synthetic? at h
  unfold source?
  split at h
  · next heq => rw [heq]
  · exact nomatch h

theorem startSynthetic_cases (s : Store) (m : ModuleId) :
    (∃ c, s.startSynthetic m = (.over c, s)) ∨ ∃ steps, s.steps? m = some steps ∧
      s.startSynthetic m = (.run steps, s.modifySynthetic m fun r ↦ { r with steps := none }) := by
  unfold startSynthetic steps?
  rcases s.synthetic? m with _ | r
  · exact .inl ⟨_, rfl⟩
  rcases hc : r.completion with _ | c
  · rcases hs : r.steps with _ | steps
    · exact .inl ⟨.ok (), by simp only [hc, hs]⟩
    · exact .inr ⟨steps, hs, by simp only [hc, hs]⟩
  · exact .inl ⟨c, by simp only [hc]⟩

theorem steps?_modifySynthetic (s : Store) (m x : ModuleId) {f : Synthetic → Synthetic}
    (hf : ∀ r, (f r).steps = none ∨ (f r).steps = r.steps) :
    (s.modifySynthetic m f).steps? x = s.steps? x ∨ (s.modifySynthetic m f).steps? x = none := by
  simp only [steps?, synthetic?_modifySynthetic]
  split
  · rcases s.synthetic? x with _ | r
    · exact .inl rfl
    · exact (hf r).symm
  · exact .inl rfl

/-- The steps of a synthetic module are taken once. -/
theorem synthetic_pays (hs : s.Within n l) (m : ModuleId) :
    s.Pays l n 2 [] (Task.advance s (.synthetic m)) := by
  rcases s.startSynthetic_cases m with ⟨c, heq⟩ | ⟨steps, hhad, heq⟩
  · simp only [Task.advance, heq]
    exact .of_ascends (.refl s) (.refl s) rfl Nat.zero_lt_two
  · obtain ⟨hplace, hlength⟩ := hs.steps m steps hhad
    have hascends : s.Ascends (s.modifySynthetic m fun r ↦ { r with steps := none }) :=
      (Loads.of_source? fun x ↦ source?_modifySynthetic s m _ x).ascends
    have hw : s.Wears (s.modifySynthetic m fun r ↦ { r with steps := none }) :=
      .of_ascends hascends fun x ↦ s.steps?_modifySynthetic m x fun _ ↦ .inl rfl
    have hnone : (s.modifySynthetic m fun r ↦ { r with steps := none }).steps? m = none := by
      simp only [steps?, synthetic?_modifySynthetic, if_true]
      cases s.synthetic? m <;> rfl
    simp only [Task.advance, heq]
    refine .of_entry hw (.of_ascends hascends []) (hw.energy_lt hplace ?_) ?_
    · simp [height, source?_modifySynthetic, source?_of_steps? hhad, hnone, hhad]
    · have h1 := bodyPrice_of_length (v := n) hlength
      have h2 := Nat.mul_le_mul_left (steps.length + 1) (stepPrice_mono (l := l)
        ((s.modifySynthetic m fun r ↦ { r with steps := none }).loose_le n []))
      simp only [Next.price, Task.price, Frame.price, entryPrice]
      omega

/-- A change by a body, or by a read. -/
theorem Pays.of_apart {price : Nat} {x : Store × Next} (h : Apart s x.1) (hq : x.2.Quiet)
    (hprice : x.2.price l n x.1 < price) : s.Pays l n price [] x :=
  .of_ascends (Loads.of_apart h).ascends (.of_same h.inside.same)
    (by rw [Next.linkStack, hq.linkTours]; rfl) hprice

end Store

/-- A step of a body can have an export read, or a module linked or evaluated. -/
theorem Body.advance_pays {l n : Nat} (s : Store) (b : Body) :
    s.Pays l n ((Task.body b).price l (s.loose n [])) [] (b.advance s) := by
  have hapart := b.advance_apart s
  refine .of_apart hapart (b.advance_quiet s) ?_
  have hle := ((Store.Tightens.of_ascends (Store.Loads.of_apart hapart).ascends []).loose_le n)
  have hpos : 0 < (Task.body b).price l (s.loose n []) :=
    Nat.mul_pos (Nat.succ_pos _) (Nat.lt_of_lt_of_le (by decide) (Nat.le_add_left 10 _))
  revert hle hpos
  unfold advance
  split
  · exact fun _ hpos ↦ hpos
  next step rest hsteps =>
  generalize hv : s.loose n [] = v
  intro hle hpos
  have hstep : (b.steps.length + 1) * stepPrice l v =
      (rest.length + 1) * stepPrice l v + (linkPrice l v + 10) := by
    rw [hsteps, List.length_cons, Nat.succ_mul]
    rfl
  -- what is left of the body costs no more than before
  have hrest : ∀ {s' : Store}, s'.loose n [] ≤ v →
      (rest.length + 1) * stepPrice l (s'.loose n []) ≤ (rest.length + 1) * stepPrice l v ∧
        linkPrice l (s'.loose n []) ≤ linkPrice l v := fun h ↦
    ⟨Nat.mul_le_mul_left _ (stepPrice_mono h), linkPrice_mono l h⟩
  revert hle
  dsimp only
  split <;> intro hle
  · obtain ⟨h, -⟩ := hrest hle
    simp only [Next.price, Task.price] at h ⊢
    omega
  · exact hpos
  · exact hpos
  all_goals
    obtain ⟨h, hlink⟩ := hrest hle
    simp only [Next.price, Task.price, Frame.price, Task.linkTours, List.flatMap_nil] at h hlink ⊢
    omega

theorem Store.read_pays {l n : Nat} (s : Store) (k : NamespaceId) (name : String) :
    s.Pays l n 8 [] (s.read k name) := by
  obtain ⟨hapart, hquiet⟩ := s.read_quiet k name
  refine .of_apart hapart hquiet ?_
  unfold Store.read
  split
  · exact Nat.lt_succ_self 7
  · exact Nat.zero_lt_succ 7

theorem Store.forceModule_pays {l n : Nat} {s : Store} (hs : s.Within n l) (m : ModuleId) :
    s.Pays l n 6 [] (s.forceModule m) := by
  rcases hm : s.source? m with _ | q
  · simp only [Store.forceModule, Store.force, hm]
    exact .of_ascends (.refl s) (.refl s) rfl (show 2 < 6 by decide)
  rcases Store.force_cases hm with ⟨c, s', heq, ha⟩ | ⟨heq, -⟩
  · simp only [Store.forceModule, heq]
    exact .of_apart ha (.give _) (Nat.zero_lt_succ 5)
  · simp only [Store.forceModule, heq]
    exact .start hs m (.force m)

theorem Store.evaluate_pays {l n : Nat} {s : Store} (hs : s.Within n l) (m : ModuleId) :
    s.Pays l n 6 [] (s.evaluate m) := by
  unfold Store.evaluate
  split
  · exact .of_ascends (.refl s) (.refl s) rfl (show 2 + 1 < 6 by decide)
  · dsimp only
    generalize s.evaluationRoot m = root
    split
    · exact .of_ascends (.refl s) (.refl s) rfl (Nat.zero_lt_succ 5)
    · have hascends := Store.Ascends.newCapability s root
      have hspends : s.Spends (s.newCapability root).2 :=
        .of_synthetic? fun x ↦ s.synthetic?_newCapability x root
      exact .after hascends hspends (.start (hs.wears (.of_ascends hascends hspends)) root _)

/-- Linking is refused, or there is a walk. -/
theorem Store.startLinking_enters (s : Store) (m : ModuleId) :
    (∃ kind message, s.startLinking m =
      (.error (s.throw kind message).1, (s.throw kind message).2)) ∨
      s.startLinking m = (.ok ((LinkWalk.enter s {} m).2.getD {}), (LinkWalk.enter s {} m).1) := by
  unfold Store.startLinking
  split
  · exact .inl ⟨_, _, rfl⟩
  · exact .inl ⟨_, _, rfl⟩
  · refine .inr ?_
    split <;> next heq => rw [heq]; rfl

theorem Task.link_pays {l n : Nat} {s : Store} (hs : s.Within n l) (m : ModuleId) :
    s.Pays l n (linkPrice l (s.loose n []) + 3) [] (Task.advance s (.link m)) := by
  rcases s.startLinking_enters m with ⟨kind, message, heq⟩ | heq
  · simp only [advance, heq]
    exact .of_apart (.throw s kind message) (.give _) (Nat.zero_lt_succ _)
  simp only [advance, heq]
  have hascends := LinkWalk.enter_ascends s {} m
  have hspends := LinkWalk.enter_spends s {} m
  rcases hw : (LinkWalk.enter s {} m).2 with _ | w
  · have := linkPrice_mono l ((Store.Tightens.of_ascends hascends []).loose_le n)
    refine .of_ascends hascends hspends rfl ?_
    simp only [Next.price, Task.price, LinkWalk.price, List.map_nil, List.sum_nil, Option.getD_none]
    omega
  · obtain ⟨ht, hp⟩ := LinkWalk.enter_pays hs (Prod.ext rfl hw :
      LinkWalk.enter s {} m = ((LinkWalk.enter s {} m).1, some w))
    refine .of_price (.of_ascends hascends hspends) ?_ ?_
    · rw [show (Next.goto (.linking (Option.getD (some w) {}))).linkStack = w.stack from
        List.append_nil _]
      exact ht
    · simp only [Next.price, Task.price, Option.getD_some, LinkWalk.price, List.map_nil,
        List.sum_nil] at hp ⊢
      omega

/-- A task other than loading and a job. -/
theorem Task.advance_pays {l n : Nat} {s : Store} {t : Task} {L : List LinkTour}
    (hs : s.Within n l) (hl : Linkage s (t.linkTours ++ L)) (ht : t.isOutward = false) :
    s.Pays l n (t.price l (s.loose n [])) (t.linkTours.flatMap (·.stack)) (t.advance s) := by
  cases t with
  | body b => exact b.advance_pays s
  | read k name => exact s.read_pays k name
  | force m => exact Store.forceModule_pays hs m
  | synthetic m => exact Store.synthetic_pays hs m
  | link m => exact Task.link_pays hs m
  | linking w =>
    rw [show (Task.linking w).linkTours.flatMap (·.stack) = w.stack from List.append_nil _]
    exact LinkWalk.advance_pays hs hl
  | evaluate m => exact Store.evaluate_pays hs m
  | evaluation goal w =>
    rcases w.advance_price (l := l) (v := s.loose n []) s with
      ⟨w', m, r, t, t', hle, hr, ha, heq⟩ | hlt
    · simp only [advance, heq]
      exact .enter hs hr ha hle
    · exact .walk hs (.advance s w) (fun m ↦ w.synthetic?_advance s m) hlt
  | free ms =>
    rcases ms with _ | ⟨m, rest⟩
    · exact .of_ascends (.refl s) (.refl s) rfl (Nat.zero_lt_one.trans_le (Nat.le_add_right _ _))
    · have hascends := Store.Ascends.continueFree s m
      have hspends : s.Spends (s.continueFree m).2 := .of_synthetic? fun x ↦ s.synthetic?_continueFree x m
      have hwithin := hs.wears (.of_ascends hascends hspends)
      have hbody := bodyPrice_mono (l := l) ((Store.Tightens.of_ascends hascends []).loose_le n)
      have hrest := Nat.mul_le_mul_left rest.length (Nat.add_le_add_right hbody 2)
      have hprice : (rest.length + 1) * (bodyPrice l (s.loose n []) + 2) =
          rest.length * (bodyPrice l (s.loose n []) + 2) + (bodyPrice l (s.loose n []) + 2) :=
        Nat.succ_mul _ _
      simp only [advance]
      split
      · next s' heq =>
        obtain rfl : _ = s' := congrArg Prod.snd heq
        refine .of_ascends hascends hspends rfl ?_
        simp only [Next.price, price, List.length_cons]
        omega
      · next capability s' heq =>
        obtain rfl : _ = s' := congrArg Prod.snd heq
        have := bodyPrice_of_length (v := (s.continueFree m).2.loose n []) (hwithin.body m)
        refine .of_ascends hascends hspends rfl ?_
        simp only [Next.price, Store.execution, price, Frame.price, linkTours, List.flatMap_nil,
          List.length_cons]
        omega
  | _ => contradiction

/-- The rest of a body, when a frame goes on with it. -/
theorem Store.Pays.goOn {l n : Nat} {s s' : Store} (b : Body) (h : Apart s s') :
    s.Pays l n ((b.steps.length + 1) * stepPrice l (s.loose n []) + 1) []
      (s', .goto (.body b)) := by
  refine .of_apart h (.body b) (Nat.lt_succ_of_le (Nat.mul_le_mul_left _ (stepPrice_mono ?_)))
  exact (Tightens.of_ascends (Loads.of_apart h).ascends []).loose_le n

/-- A frame other than of loading. -/
theorem Frame.resume_pays {l n : Nat} {s : Store} {r : Result} {f : Frame} {L : List LinkTour}
    (hs : s.Within n l) (hl : Linkage s (f.linkTours ++ L)) (hf : f.isLoad = false) :
    s.Pays l n (f.price l (s.loose n [])) (f.linkTours.flatMap (·.stack)) (f.resume s r) := by
  cases f with
  | bodyRead b label probe =>
    simp only [resume]
    split
    · exact .goOn b (.print s _)
    · exact .goOn b (.print s _)
    · exact .of_apart (b.give_apart s _) (.give _) (Nat.zero_lt_succ _)
    · exact .goOn b (.refl s)
  | bodyLink b name =>
    simp only [resume]
    split <;> exact .goOn b (.print s _)
  | bodyEvaluate b name =>
    simp only [resume]
    split
    · exact .goOn b (.print s _)
    · exact .goOn b (.refl s)
  | readForced k name =>
    refine .of_apart ((Frame.resume_quiet s r rfl).2.2 (by simp)) (Frame.resume_quiet s r rfl).2.1 ?_
    simp only [resume]
    split <;> exact Nat.zero_lt_one
  | syntheticSteps m =>
    refine .of_ascends (Store.Loads.of_source? fun x ↦ Store.source?_modifySynthetic _ _ _ x).ascends
      (fun x ↦ s.steps?_modifySynthetic m x fun _ ↦ .inr rfl) rfl Nat.zero_lt_one
  | syntheticPromise =>
    exact .of_apart (.settledPromise s _) (.give _) Nat.zero_lt_one
  | setUp m w =>
    have hlinking : ∀ x ∈ w.stack, ∀ r, s.source? x = some r → r.status = .linking :=
      fun x hx r hr ↦ by
        have := hl.linking _ List.mem_cons_self x hx
        simpa [Store.status?, hr] using this
    have hspends := Store.Spends.of_same (Frame.setUp_inside hl r).1.same
    have hwears := (Frame.setUp_climbs r m hlinking).elim (Store.Wears.of_ascends · hspends)
      (Store.Wears.of_relapses ·.2 hspends)
    rw [show (Frame.setUp m w).linkTours.flatMap (·.stack) = w.stack from List.append_nil _]
    revert hspends hwears
    simp only [resume]
    split <;> intro hspends hwears
    · have hascends : s.Ascends (LinkWalk.conclude s w m).1 :=
        LinkWalk.conclude_ascends m fun x hx r hr ↦ by
          rw [hlinking x hx r hr, Status.le_iff]
          decide
      refine .of_price hwears ?_ ?_
      · rw [show (Next.goto (.linking (LinkWalk.conclude s w m).2)).linkStack =
          (LinkWalk.conclude s w m).2.stack from List.append_nil _]
        exact (Store.Tightens.of_ascends hascends w.stack).trans
          (.subset (LinkWalk.conclude_subset s w m))
      · exact Nat.lt_succ_of_le
          (w.price_mono ((Store.Tightens.of_ascends hascends []).loose_le n))
    · exact .of_price hwears (LinkWalk.unlink_tightens (fun _ ↦ rfl) w.stack) (Nat.zero_lt_succ _)
  | executed goal m capability w =>
    exact .walk hs (.executed s w m capability _) (fun x ↦ w.synthetic?_executed s x m capability _)
      (Nat.lt_succ_of_le (w.executed_price capability _))
  | passed goal w =>
    exact .walk hs (.passed s w _) (fun x ↦ w.synthetic?_passed s x _)
      (Nat.lt_succ_of_le (w.passed_price _))
  | freed m capability rest =>
    have hascends := Store.Ascends.finishFree s m capability r.toCompletion
    have hbody := bodyPrice_mono (l := l) ((Store.Tightens.of_ascends hascends []).loose_le n)
    have hrest := Nat.mul_le_mul_left rest.length (Nat.add_le_add_right hbody 2)
    refine .of_ascends hascends
      (.of_synthetic? fun x ↦ s.synthetic?_finishFree x m capability r.toCompletion) rfl ?_
    simp only [resume, Next.price, Task.price, price]
    omega
  | _ => contradiction

/-! ## Calls -/

namespace Machine

variable {l n : Nat} {M : Machine}

/-- Neither is the machine about to run a job, nor does it have to do with loading. -/
structure Inward (M : Machine) : Prop where
  current : M.current.isOutward = false
  frames : ∀ f ∈ M.frames, f.isLoad = false

theorem Inward.apply {s : Store} {x : Next} {fs : List Frame} (hx : x.isOutward = false)
    (hfs : ∀ f ∈ fs, f.isLoad = false) : (Machine.apply fs (s, x)).Inward := by
  cases x with
  | goto t => exact ⟨hx, hfs⟩
  | give r => exact ⟨hx, hfs⟩
  | call t f =>
    simp only [Next.isOutward, Next.isLoad, Next.hand, Bool.or_eq_false_iff] at hx
    refine ⟨?_, List.forall_mem_cons.2 ⟨hx.1.2, hfs⟩⟩
    change (t.isLoad || !t.hand.isEmpty) = false
    rw [hx.1.1, hx.2]
    rfl

/-- A machine that has nothing to do with loading does not stand still before its end. -/
theorem Inward.next? (h : M.Inward) (hr : M.result? = none) : ∃ x, M.next? = some x := by
  obtain ⟨s, control, fs⟩ := M
  rcases control with t | r
  · cases t with
    | ask q => exact nomatch h.current
    | _ => exact ⟨_, rfl⟩
  · rcases fs with _ | ⟨f, fs⟩
    · exact nomatch hr
    · exact ⟨_, rfl⟩

/-- A machine that has nothing to do with loading stays so. -/
theorem Inward.keep (h : M.Inward) (hl : Linkage M.store M.linkTours) : M.step.Inward := by
  rcases hnext : M.next? with _ | x
  · rwa [step_of_next?_eq_none hnext]
  rw [step_of_next? hnext]
  obtain ⟨s, control, fs⟩ := M
  rcases control with t | r
  · obtain rfl : x = t.advance s := advance_of_next? hnext
    exact .apply (Task.isOutward_advance hl h.current) h.frames
  · rcases fs with _ | ⟨f, fs⟩
    · contradiction
    obtain rfl : x = f.resume s r := (Option.some.inj hnext).symm
    obtain ⟨hf, hfs⟩ := List.forall_mem_cons.1 h.frames
    exact .apply (Frame.isOutward_resume hl hf) hfs

/-- Every step is paid for. -/
theorem Inward.step (h : M.Inward) (hs : M.store.Within n l) (hup : M.Upward)
    (hr : M.result? = none) :
    M.step.Inward ∧ M.step.store.Within n l ∧ M.step.price l n < M.price l n := by
  refine ⟨h.keep hup.linkage, ?_⟩
  obtain ⟨x, hnext⟩ := h.next? hr
  rw [step_of_next? hnext]
  obtain ⟨s, control, fs⟩ := M
  -- what is on top pays for the step, and what is below costs no more than before
  have hall : ∀ {price : Nat} {stack : List ModuleId} {below : List Frame},
      s.Pays l n price stack x →
      entryPrice l n * s.energy n + price + Frame.prices l n s stack below ≤
        (Machine.mk s control fs).price l n →
      (Machine.apply below x).store.Within n l ∧
        (Machine.apply below x).price l n < (Machine.mk s control fs).price l n := by
    intro price stack below hpays hle
    have := hpays.pays
    have := Frame.prices_le (l := l) (n := n) hpays.tightens below
    constructor
    · rw [store_apply]
      exact hs.wears hpays.wears
    · rw [price_apply]
      omega
  rcases control with t | r
  · obtain rfl : x = t.advance s := advance_of_next? hnext
    have hl : Linkage s (t.linkTours ++ fs.flatMap Frame.linkTours) := hup.linkage
    exact hall (Task.advance_pays hs hl h.current) le_rfl
  · rcases fs with _ | ⟨f, fs⟩
    · exact nomatch hr
    obtain rfl : x = f.resume s r := (Option.some.inj hnext).symm
    have hl : Linkage s (f.linkTours ++ fs.flatMap Frame.linkTours) := hup.linkage
    obtain ⟨hf, -⟩ := List.forall_mem_cons.1 h.frames
    refine hall (Frame.resume_pays hs hl hf) (le_of_eq ?_)
    exact (Nat.add_assoc _ (f.price l (s.loose n [])) _).trans rfl

/-- A machine comes to its end, unless a walk enters a module that has not been linked. -/
theorem Inward.halts (h : M.Inward) (hup : M.Upward) :
    ∃ k, (∀ i < k, (Machine.step^[i] M).Asserts (Machine.step^[i + 1] M)) →
      (Machine.step^[k] M).result?.isSome = true := by
  obtain ⟨n, l, hs⟩ := M.store.exists_within
  generalize hprice : M.price l n = price
  induction price using Nat.strong_induction_on generalizing M with
  | h price ih =>
    rcases hr : M.result? with _ | r
    · by_cases hP : M.Asserts M.step
      · obtain ⟨h', hs', hlt⟩ := h.step hs hup hr
        obtain ⟨k, hk⟩ := ih _ (hprice ▸ hlt) h' (hup.step hP).1 hs' rfl
        exact ⟨k + 1, fun hall ↦ hk fun i hi ↦ hall (i + 1) (Nat.succ_lt_succ hi)⟩
      · exact ⟨1, fun hall ↦ absurd (hall 0 Nat.zero_lt_one) hP⟩
    · exact ⟨0, fun _ ↦ by simp [hr]⟩

end Machine

/-- The job has the host answer a request. -/
def Job.answersLoad (j : Job) : Bool :=
  match j.reaction with
  | .answerLoad _ => true
  | _ => false

/-- The task has to do with loading. -/
def Task.loads (t : Task) : Bool :=
  t.isLoad || t.hand.any Job.answersLoad

/-- The machine has to do with loading, so the host may have to be asked. -/
def Machine.loads (M : Machine) : Bool :=
  (match M.control with
    | .run t => t.loads
    | .give _ => false) || M.frames.any Frame.isLoad

theorem Job.isOutward_run {s : Store} {j : Job} (h : j.answersLoad = false) :
    (j.run s).2.isOutward = false := by
  obtain ⟨reaction, c⟩ := j
  cases reaction with
  | answerLoad call => exact nomatch h
  | _ => rcases c with e | ⟨⟩ <;> rfl

/-- A call that has nothing to do with loading comes back, unless a walk enters a module that has
not been linked. -/
theorem Machine.Upward.halts {M : Machine} (h : M.Upward) (hl : M.loads = false) :
    ∃ k, (∀ i < k, (Machine.step^[i] M).Asserts (Machine.step^[i + 1] M)) →
      (Machine.step^[k] M).result?.isSome = true := by
  obtain ⟨s, control, fs⟩ := M
  obtain ⟨hcontrol, hframes⟩ := Bool.or_eq_false_iff.1 hl
  have hbelow : ∀ f ∈ fs, f.isLoad = false := by simpa using hframes
  rcases control with t | r
  · cases hhand : t.hand with
    | nil =>
      refine Inward.halts ⟨?_, hbelow⟩ h
      have hload : t.isLoad = false := (Bool.or_eq_false_iff.1 hcontrol).1
      change (t.isLoad || !t.hand.isEmpty) = false
      rw [hload, hhand]
      rfl
    | cons j rest =>
      -- a job is over after one step, or there are bodies to be run
      obtain ⟨reaction, c⟩ := j
      cases t with
      | job j =>
        obtain ⟨rfl, rfl⟩ := List.cons.inj hhand
        have hjob : Job.answersLoad ⟨reaction, c⟩ = false := by
          simpa [Task.loads, Task.isLoad, Task.hand] using hcontrol
        by_cases hP : (Machine.mk s (.run (.job ⟨reaction, c⟩)) fs).Asserts
            (Machine.mk s (.run (.job ⟨reaction, c⟩)) fs).step
        · obtain ⟨k, hk⟩ := Inward.halts (.apply (Job.isOutward_run hjob) hbelow) (h.step hP).1
          exact ⟨k + 1, fun hall ↦ hk fun i hi ↦ hall (i + 1) (Nat.succ_lt_succ hi)⟩
        · exact ⟨1, fun hall ↦ absurd (hall 0 Nat.zero_lt_one) hP⟩
      | _ => contradiction
  · exact Inward.halts ⟨rfl, hbelow⟩ h

end EcmaModules
