import EcmaModules.Proofs.Evolving
import EcmaModules.Proofs.Lending
import EcmaModules.Proofs.Underway
import Mathlib

/-!
# What a step of a walk does to modules

Whatever a walk does, it leaves alone the modules that settle, and no module is given an error or a
promise before the walk ends. The path of a walk ends in the same module as long as the walk goes on,
and when it fails that module is still on its stack.
-/

namespace EcmaModules

open EvaluationWalk (completeStatus concludeExecuted concludeSearched closesComponent)

/-! ## The order of statuses -/

/-- How far a module with the status has come. -/
def Status.rank : Status → Nat
  | .new => 0
  | .unlinked => 1
  | .linking => 2
  | .linked => 3
  | .asyncSubgraphsSearching => 4
  | .asyncSubgraphsSearchingAsync => 5
  | .asyncSubgraphsEvaluated => 6
  | .evaluating => 7
  | .evaluatingAsync => 8
  | .evaluated => 9

theorem Status.rank_injective : Function.Injective Status.rank := by
  rintro a b h
  cases a <;> cases b <;> first | rfl | exact nomatch h

/-- A module that was searched may be executed later, and comes further by that. -/
instance : LinearOrder Status := LinearOrder.lift' Status.rank Status.rank_injective

theorem Status.le_iff {a b : Status} : a ≤ b ↔ a.rank ≤ b.rank := Iff.rfl

theorem Status.le_evaluated (a : Status) : a ≤ .evaluated := by
  rw [le_iff]
  cases a <;> decide

/-! ## Modules -/

/-- A module comes further when a walk enters it. -/
theorem SourceText.lt_of_arrival {r : SourceText} {t t' : Traversal} (ha : r.arrival t = .enter t') :
    r.status < t'.status := by
  rw [← not_le, Status.le_iff]
  unfold arrival traversal at ha
  cases hr : r.status <;> cases t <;> cases t' <;> cases haw : r.entries.awaits <;>
    cases he : r.evaluationError <;> simp_all [Status.rank, Traversal.status]

/-- What a step of a walk may do to a module. -/
structure SourceText.Treads (r r' : SourceText) : Prop where
  script : r'.script = r.script
  loaded : r'.loaded = r.loaded
  capability : r'.capability = r.capability
  evaluationError : r'.evaluationError = r.evaluationError
  settling : r.status.isSettling = true → r'.status = r.status
  evaluating : r.status = .evaluating → r'.status = .evaluating ∨ r'.status.isSettling = true
  rises : r.status ≤ r'.status

namespace SourceText.Treads

variable {r r' r'' : SourceText}

theorem of_status (h : r'.script = r.script ∧ r'.loaded = r.loaded ∧
      r'.capability = r.capability ∧ r'.evaluationError = r.evaluationError ∧
      r'.status = r.status) : r.Treads r' :=
  ⟨h.1, h.2.1, h.2.2.1, h.2.2.2.1, fun _ ↦ h.2.2.2.2, fun hs ↦ .inl (h.2.2.2.2.trans hs),
    h.2.2.2.2.ge⟩

theorem refl (r : SourceText) : r.Treads r := of_status ⟨rfl, rfl, rfl, rfl, rfl⟩

theorem trans (h : r.Treads r') (h' : r'.Treads r'') : r.Treads r'' where
  script := h'.script.trans h.script
  loaded := h'.loaded.trans h.loaded
  capability := h'.capability.trans h.capability
  evaluationError := h'.evaluationError.trans h.evaluationError
  settling hs := (h'.settling ((h.settling hs).symm ▸ hs)).trans (h.settling hs)
  evaluating hs := by
    rcases h.evaluating hs with hs' | hs'
    · exact h'.evaluating hs'
    · exact .inr ((h'.settling hs').symm ▸ hs')
  rises := h.rises.trans h'.rises

/-- A module of a complete component settles if it was executed. -/
theorem complete (root : ModuleId) (r : SourceText) : r.Treads (r.complete root) where
  script := rfl
  loaded := rfl
  capability := rfl
  evaluationError := rfl
  settling hs := by
    cases hr : r.status <;> simp [hr, Status.isSettling] at hs <;>
      simp [SourceText.complete, completeStatus, hr]
  evaluating hs := by
    refine .inr ?_
    change (completeStatus r).isSettling = true
    by_cases hp : r.asyncState = .pending <;> simp [completeStatus, hs, hp, Status.isSettling]
  rises := by
    change r.status ≤ completeStatus r
    rw [Status.le_iff]
    by_cases hp : r.asyncState = .pending <;> cases hs : r.status <;>
      simp [completeStatus, hs, hp, Status.rank]

/-- A module that a walk enters does not settle, and is not being executed. -/
theorem entered {t t' : Traversal} (ha : r.arrival t = .enter t') (i : Nat) :
    r.Treads (r.entered t' i) where
  script := rfl
  loaded := rfl
  capability := rfl
  evaluationError := rfl
  settling hs := by
    obtain ⟨-, hstatus⟩ := r.arrival_eq_enter ha
    cases hr : r.status <;> simp [hr, Status.isSettling] at hs <;>
      simp [hr, Status.outline] at hstatus
  evaluating hs := absurd hs (r.not_evaluating_of_arrival ha)
  rises := (r.lt_of_arrival ha).le

end SourceText.Treads

/-! ### Trails -/

/-- The path of a walk, with the traversals in which the modules were entered. -/
def EvaluationWalk.trail (w : EvaluationWalk) : List (ModuleId × Traversal) :=
  w.frames.map fun f ↦ (f.module, f.traversal)

/-- The trail of the walk after a step, if it goes on by itself. -/
def EvaluationStep.trail : EvaluationStep → List (ModuleId × Traversal)
  | .go w => w.trail
  | _ => []

namespace EvaluationWalk

variable {s : Store} {w : EvaluationWalk} {m d : ModuleId} {t : Traversal}
  {p : ModuleId × Traversal}

theorem back_trail (s : Store) (w : EvaluationWalk) (d : ModuleId) :
    (back s w d).2.trail = w.trail ∨ (back s w d).2.trail = [] := by
  unfold back
  split
  · exact .inl rfl
  · split
    · exact .inl rfl
    · exact .inr rfl

theorem ne_cons_of_trail {l : List (ModuleId × Traversal)} (h : l = w.trail ∨ l = []) :
    l ≠ p :: w.trail := by
  rintro rfl
  rcases h with h | h
  · exact absurd h.symm (List.ne_cons_self)
  · exact nomatch h

theorem concludeExecuted_trail (s : Store) (w : EvaluationWalk) (m : ModuleId) :
    (concludeExecuted s w m).2.trail = w.trail ∨ (concludeExecuted s w m).2.trail = [] := by
  unfold concludeExecuted
  split
  · exact back_trail _ { w with stack := _ } m
  · exact back_trail s w m

theorem concludeSearched_trail (s : Store) (w : EvaluationWalk) (m : ModuleId) :
    (concludeSearched s w m).2.trail = w.trail ∨ (concludeSearched s w m).2.trail = [] := by
  rw [concludeSearched_eq]
  split
  · exact back_trail _ { w with stack := _ } m
  · exact back_trail _ w m

theorem execute_trail (s : Store) (w : EvaluationWalk) (m : ModuleId) :
    (execute s w m).2.trail = w.trail ∨ (execute s w m).2.trail = [] := by
  unfold execute
  split
  · exact .inl rfl
  · split
    · exact concludeExecuted_trail _ w m
    · split <;> exact .inr rfl

/-- A trail gets longer only if a module is entered. -/
theorem enters_of_arrive (h : (arrive s w m t).2.trail = p :: w.trail) :
    ∃ r t', p = (m, t') ∧ s.source? m = some r ∧ r.arrival t = .enter t' ∧
      arrive s w m t = ((push s w m t').1, .go (push s w m t').2) := by
  unfold arrive at h ⊢
  split at h
  · exact nomatch h
  next r hr =>
  split at h
  · exact nomatch h
  · exact absurd h (ne_cons_of_trail (back_trail _ w m))
  · next t' ha =>
    obtain ⟨rfl, -⟩ := List.cons.inj h
    exact ⟨r, t', rfl, hr, ha, rfl⟩

theorem enters_of_advance (h : (w.advance s).2.trail = p :: w.trail) :
    ∃ w' r t t', w'.trail = w.trail ∧ w'.index = w.index ∧ w'.stack = w.stack ∧ p = (p.1, t') ∧
      s.source? p.1 = some r ∧ r.arrival t = .enter t' ∧
      w.advance s = ((push s w' p.1 t').1, .go (push s w' p.1 t').2) := by
  unfold advance at h ⊢
  split at h
  · exact nomatch h
  · next m rest hf =>
    refine absurd (congrArg List.length h) ?_
    rcases execute_trail s { w with frames := rest } m with heq | heq <;>
      simp only [heq, trail, hf, List.length_map, List.length_cons, List.length_nil] <;> omega
  · next m rest hf =>
    refine absurd (congrArg List.length h) ?_
    rcases concludeSearched_trail s { w with frames := rest } m with heq | heq <;>
      simp only [heq, trail, hf, List.length_map, List.length_cons, List.length_nil] <;> omega
  · next m t r requests rest hf =>
    have htrail : ({ w with frames := ⟨m, t, requests⟩ :: rest } : EvaluationWalk).trail = w.trail := by
      simp [trail, hf]
    dsimp only at h ⊢
    split at h
    · next d hd =>
      rw [← htrail] at h
      obtain ⟨q, t', rfl, hq, ha, heq⟩ := enters_of_arrive h
      exact ⟨_, q, _, t', htrail, rfl, rfl, rfl, hq, ha, heq⟩
    · exact absurd (h.symm.trans htrail) (List.cons_ne_self _ _)

end EvaluationWalk

/-! ### Steps that enter no module -/

/-- A relation that allows whatever a walk does to a module, but for entering it. -/
structure Permits (R : SourceText → SourceText → Prop) : Prop where
  refl : ∀ r, R r r
  trans : ∀ r r' r'', R r r' → R r' r'' → R r r''
  still : ∀ r r' : SourceText, r'.script = r.script ∧ r'.loaded = r.loaded ∧
    r'.capability = r.capability ∧ r'.evaluationError = r.evaluationError ∧
    r'.status = r.status → R r r'
  complete : ∀ root r, R r (r.complete root)

theorem SourceText.permits_treads : Permits SourceText.Treads :=
  ⟨.refl, fun _ _ _ ↦ .trans, fun _ _ ↦ .of_status, .complete⟩

/-- A module that has not been linked stays as it is. -/
theorem SourceText.permits_unlinked :
    Permits fun r r' ↦ r.status < .linked → r'.status = r.status where
  refl _ _ := rfl
  trans r r' r'' h h' hr := (h' ((h hr).symm ▸ hr)).trans (h hr)
  still _ _ h _ := h.2.2.2.2
  complete root r hr := by
    change completeStatus r = r.status
    rw [← not_le, Status.le_iff] at hr
    cases hs : r.status <;> simp [hs, Status.rank] at hr <;> simp [completeStatus, hs]

namespace Permits

variable {R : SourceText → SourceText → Prop} (hR : Permits R)

include hR

theorem modifySource (s : Store) (m : ModuleId) {f : SourceText → SourceText}
    (hf : ∀ r : SourceText, (f r).script = r.script ∧ (f r).loaded = r.loaded ∧
      (f r).capability = r.capability ∧ (f r).evaluationError = r.evaluationError ∧
      (f r).status = r.status) : s.Each R (s.modifySource m f) :=
  .modifySource hR.refl s m fun r _ ↦ hR.still r _ (hf r)

theorem await (s : Store) (m d : ModuleId) : s.Each R (EvaluationWalk.await s m d) := by
  rcases EvaluationWalk.await_cases s m d with h | ⟨_, _, _, _, _, _, h⟩
  · rw [h]
    exact .refl hR.refl s
  · rw [h]
    refine .trans hR.trans (hR.modifySource s m ?_) (hR.modifySource _ d ?_)
    all_goals exact fun _ ↦ ⟨rfl, rfl, rfl, rfl, rfl⟩

theorem detach (s : Store) (w : EvaluationWalk) (m : ModuleId) :
    s.Each R (EvaluationWalk.detach s w m) := by
  unfold EvaluationWalk.detach
  split
  · exact hR.modifySource s m fun _ ↦ ⟨rfl, rfl, rfl, rfl, rfl⟩
  · exact .refl hR.refl s

theorem leave (s : Store) (m d : ModuleId) : s.Each R (EvaluationWalk.leave s m d).2 := by
  have hlower : ∀ i, s.Each R (s.lowerAncestor m i) := fun i ↦
    hR.modifySource s m fun _ ↦ ⟨rfl, rfl, rfl, rfl, rfl⟩
  unfold EvaluationWalk.leave
  split
  · split
    · exact .trans hR.trans (hlower _) (hR.await _ m d)
    · split
      · exact hR.await s m d
      · dsimp only
        split
        · exact .refl hR.refl s
        · exact hR.await s m _
  · exact .refl hR.refl s

theorem back (s : Store) (w : EvaluationWalk) (d : ModuleId) :
    s.Each R (EvaluationWalk.back s w d).1 := by
  unfold EvaluationWalk.back
  split
  · exact .refl hR.refl s
  · next f _ _ =>
    have h := hR.leave s f.module d
    split <;> next heq => rw [heq] at h; exact h

theorem completeMember (s : Store) (root m : ModuleId) :
    s.Each R (EvaluationWalk.completeMember s root m) :=
  .modifySource hR.refl s m fun r _ ↦ hR.complete root r

theorem popExecuted (s : Store) (root : ModuleId) (stack : List ModuleId) :
    s.Each R (EvaluationWalk.popExecuted s root stack).1 := by
  induction stack generalizing s with
  | nil => exact .refl hR.refl s
  | cons m stack ih =>
    rw [EvaluationWalk.popExecuted]
    split
    · exact hR.completeMember s root m
    · exact .trans hR.trans (hR.completeMember s root m) (ih _)

theorem popSearched (s : Store) (root : ModuleId) (stack : List ModuleId) :
    s.Each R (EvaluationWalk.popSearched s root stack).1 := by
  induction stack generalizing s with
  | nil => exact .refl hR.refl s
  | cons m stack ih =>
    rw [EvaluationWalk.popSearched]
    split
    · exact hR.completeMember s root m
    · exact .trans hR.trans (hR.completeMember s root m) (ih _)

theorem concludeExecuted (s : Store) (w : EvaluationWalk) (m : ModuleId) :
    s.Each R (EvaluationWalk.concludeExecuted s w m).1 := by
  unfold EvaluationWalk.concludeExecuted
  split
  · exact .trans hR.trans (hR.popExecuted s m w.stack) (hR.back _ _ m)
  · exact hR.back s w m

theorem concludeSearched (s : Store) (w : EvaluationWalk) (m : ModuleId) :
    s.Each R (EvaluationWalk.concludeSearched s w m).1 := by
  rw [EvaluationWalk.concludeSearched_eq]
  have hhold : s.Each R (s.holdSearched m) := hR.modifySource s m fun r ↦ by
    split <;> exact ⟨rfl, rfl, rfl, rfl, rfl⟩
  refine .trans hR.trans hhold ?_
  split
  · exact .trans hR.trans (hR.popSearched _ m w.stack) (hR.back _ _ m)
  · exact hR.back _ w m

theorem startAsync (s : Store) (m : ModuleId) : s.Each R (s.startAsync m).2 :=
  .trans hR.trans
    (hR.modifySource s m (f := fun r ↦ { r with asyncState := .pending })
      fun _ ↦ ⟨rfl, rfl, rfl, rfl, rfl⟩)
    (.of_modules hR.refl (Store.modules_react _ _ _))

theorem execute (s : Store) (w : EvaluationWalk) (m : ModuleId) :
    s.Each R (EvaluationWalk.execute s w m).1 := by
  unfold EvaluationWalk.execute
  split
  · exact .refl hR.refl s
  · split
    · refine .trans hR.trans ?_ (hR.concludeExecuted _ w m)
      exact hR.modifySource s m fun _ ↦ ⟨rfl, rfl, rfl, rfl, rfl⟩
    · split
      · exact hR.startAsync s m
      · exact .refl hR.refl s

theorem executed (s : Store) (w : EvaluationWalk) (m : ModuleId) (capability : Option PromiseId)
    (c : Completion) : s.Each R (w.executed s m capability c).1 := by
  unfold EvaluationWalk.executed
  split
  · exact hR.concludeExecuted s w m
  · exact .trans hR.trans (.of_modules hR.refl (Store.modules_settle _ _ _))
      (hR.concludeExecuted _ w m)
  · exact .refl hR.refl s

theorem passed (s : Store) (w : EvaluationWalk) (c : Completion) :
    s.Each R (w.passed s c).1 := by
  unfold EvaluationWalk.passed
  split <;> exact .refl hR.refl s

/-- A walk comes to a module. If it may enter it, the relation has to allow that too. -/
theorem arrive (s : Store) (w : EvaluationWalk) {m : ModuleId} {t : Traversal}
    (hm : ∀ r t', s.source? m = some r → r.arrival t = .enter t' →
      (EvaluationWalk.arrive s w m t).2.trail = (m, t') :: w.trail → R r (r.entered t' w.index)) :
    s.Each R (EvaluationWalk.arrive s w m t).1 := by
  unfold EvaluationWalk.arrive at hm ⊢
  split
  · exact .refl hR.refl s
  next r hr =>
  split
  · exact .refl hR.refl s
  · refine .trans hR.trans ?_ (hR.back _ w m)
    split
    · exact hR.detach s w m
    · exact .refl hR.refl s
  · next t' ha =>
    refine .modifySource hR.refl s m fun q hq ↦ ?_
    obtain rfl : r = q := Option.some.inj (hr.symm.trans hq)
    refine hm r t' hr ha ?_
    simp only [hr, ha]
    rfl

theorem advance (s : Store) (w : EvaluationWalk)
    (hw : ∀ m t r t', s.source? m = some r → r.arrival t = .enter t' →
      (w.advance s).2.trail = (m, t') :: w.trail → R r (r.entered t' w.index)) :
    s.Each R (w.advance s).1 := by
  unfold EvaluationWalk.advance at hw ⊢
  split
  · exact .refl hR.refl s
  · exact hR.execute s _ _
  · exact hR.concludeSearched s _ _
  · next m t r requests rest hf =>
    simp only [hf] at hw
    dsimp only
    split
    · next d hd =>
      simp only [hd] at hw
      refine hR.arrive s _ fun q t' hq ha htrail ↦ hw d _ q t' hq ha (htrail.trans ?_)
      simp [EvaluationWalk.trail, hf]
    · exact .refl hR.refl s

end Permits

namespace Store

/-- Every module is as a step of a walk may leave it. -/
def Treads : Store → Store → Prop := Each SourceText.Treads

namespace Treads

open SourceText (permits_treads)

variable {s s' s'' : Store}

theorem refl (s : Store) : s.Treads s := Each.refl .refl s

theorem trans (h : s.Treads s') (h' : s'.Treads s'') : s.Treads s'' :=
  Each.trans (fun _ _ _ ↦ .trans) h h'

theorem of_modules (h : s'.modules = s.modules) : s.Treads s' := Each.of_modules .refl h

theorem modifySource (s : Store) (m : ModuleId) {f : SourceText → SourceText}
    (hf : ∀ r : SourceText, (f r).script = r.script ∧ (f r).loaded = r.loaded ∧
      (f r).capability = r.capability ∧ (f r).evaluationError = r.evaluationError ∧
      (f r).status = r.status) : s.Treads (s.modifySource m f) :=
  permits_treads.modifySource s m hf

theorem detach (s : Store) (w : EvaluationWalk) (m : ModuleId) :
    s.Treads (EvaluationWalk.detach s w m) := permits_treads.detach s w m

theorem completeMember (s : Store) (root m : ModuleId) :
    s.Treads (EvaluationWalk.completeMember s root m) := permits_treads.completeMember s root m

theorem popExecuted (s : Store) (root : ModuleId) (stack : List ModuleId) :
    s.Treads (EvaluationWalk.popExecuted s root stack).1 := permits_treads.popExecuted s root stack

theorem popSearched (s : Store) (root : ModuleId) (stack : List ModuleId) :
    s.Treads (EvaluationWalk.popSearched s root stack).1 := permits_treads.popSearched s root stack

theorem startAsync (s : Store) (m : ModuleId) : s.Treads (s.startAsync m).2 :=
  permits_treads.startAsync s m

theorem executed (s : Store) (w : EvaluationWalk) (m : ModuleId) (capability : Option PromiseId)
    (c : Completion) : s.Treads (w.executed s m capability c).1 :=
  permits_treads.executed s w m capability c

theorem passed (s : Store) (w : EvaluationWalk) (c : Completion) :
    s.Treads (w.passed s c).1 := permits_treads.passed s w c

theorem arrive (s : Store) (w : EvaluationWalk) (m : ModuleId) (t : Traversal) :
    s.Treads (EvaluationWalk.arrive s w m t).1 :=
  permits_treads.arrive s w fun _ _ _ ha _ ↦ .entered ha w.index

theorem advance (s : Store) (w : EvaluationWalk) : s.Treads (w.advance s).1 :=
  permits_treads.advance s w fun _ _ _ _ _ ha _ ↦ .entered ha w.index

end Treads

theorem Treads.capability? {s s' : Store} (h : s.Treads s') (x : ModuleId) :
    s'.capability? x = s.capability? x :=
  capability?_of_each (h.mono fun _ _ hr ↦ hr.capability) x

end Store

/-! ## The bottom of path and stack -/

theorem Store.Bears.getLast? {s : Store} {path stack : List ModuleId} (h : s.Bears path stack) :
    stack.getLast? = path.getLast? := by
  cases h <;> simp

/-- The path of the walk ends in the same module as the given one, or has come to an end. If the walk
has failed, what it leaves on its stack ends in that module. -/
def EvaluationStep.Stays (path : List ModuleId) : EvaluationStep → Prop
  | .failed _ left => left.getLast? = path.getLast?
  | step => step.path = [] ∨ step.path.getLast? = path.getLast?

namespace EvaluationWalk

variable {s : Store} {w : EvaluationWalk} {m d : ModuleId} {path : List ModuleId}

theorem back_stays (h : s.Bears (w.frames.map (·.module)) w.stack)
    (hpath : w.frames = [] ∨ (w.frames.map (·.module)).getLast? = path.getLast?) :
    (back s w d).2.Stays path := by
  unfold back
  split
  · next hf => exact .inl (by simp [EvaluationStep.path, hf])
  · next f rest hf =>
    have hlast := hpath.resolve_left (by simp [hf])
    split
    · exact .inr hlast
    · exact h.getLast?.trans hlast

theorem getLast?_cons_frames (w : EvaluationWalk) (m : ModuleId) :
    w.frames = [] ∨
      (w.frames.map (·.module)).getLast? = (m :: w.frames.map (·.module)).getLast? := by
  cases h : w.frames <;> simp [List.getLast?_cons]

theorem conclude_stays (h : s.Bears (m :: w.frames.map (·.module)) w.stack)
    (hclose : closesComponent s w m = false) :
    (back s w m).2.Stays (m :: w.frames.map (·.module)) := by
  refine back_stays (h.tail ?_) (getLast?_cons_frames w m)
  rintro ⟨ho, hm⟩
  simp [closesComponent, ho.isComponentRoot, hm] at hclose

theorem concludeExecuted_stays (h : s.Bears (m :: w.frames.map (·.module)) w.stack) :
    (concludeExecuted s w m).2.Stays (m :: w.frames.map (·.module)) := by
  unfold concludeExecuted
  cases hclose : closesComponent s w m with
  | false => exact conclude_stays h hclose
  | true =>
    have hm : m ∈ w.stack := by simpa using (Bool.and_eq_true_iff.1 hclose).2
    obtain ⟨above, below, hstack, hnot⟩ := exists_last_of_mem hm
    rw [hstack] at h ⊢
    simp only [if_true, popExecuted_append s hnot]
    have hdrop : ∀ x, (s.completeMembers m (above ++ [m])).Underway x →
        (((s.completeMembers m (above ++ [m])).status? x).any (·.isSettling)) = false :=
      fun x hx ↦ hx.not_settling
    exact back_stays (w := { w with stack := below.dropWhile _ }) (h.pop.dropWhile hdrop)
      (getLast?_cons_frames w m)

theorem concludeSearched_stays (h : s.Bears (m :: w.frames.map (·.module)) w.stack) :
    (concludeSearched s w m).2.Stays (m :: w.frames.map (·.module)) := by
  rw [concludeSearched_eq]
  replace h := h.of_calms (.holdSearched s m)
  cases hclose : closesComponent (s.holdSearched m) w m with
  | false => exact conclude_stays h hclose
  | true =>
    have hm : m ∈ w.stack := by simpa using (Bool.and_eq_true_iff.1 hclose).2
    obtain ⟨above, below, hstack, hnot⟩ := List.eq_append_cons_of_mem hm
    rw [hstack] at h ⊢
    simp only [if_true, popSearched_append _ below hnot]
    exact back_stays (w := { w with stack := below }) h.pop (getLast?_cons_frames w m)

theorem execute_stays (h : s.Bears (m :: w.frames.map (·.module)) w.stack) :
    (execute s w m).2.Stays (m :: w.frames.map (·.module)) := by
  unfold execute
  split
  · exact getLast?_cons_frames w m |>.imp (fun hf ↦ by simp [EvaluationStep.path, hf]) id
  · split
    · exact concludeExecuted_stays (h.of_calms (.holdModule s m))
    · split <;> exact .inr rfl

theorem executed_stays (h : s.Bears (m :: w.frames.map (·.module)) w.stack)
    (capability : Option PromiseId) (c : Completion) :
    (w.executed s m capability c).2.Stays (m :: w.frames.map (·.module)) := by
  unfold executed
  split
  · exact concludeExecuted_stays h
  · exact concludeExecuted_stays (h.of_calms (.of_modules (Store.modules_settle _ _ _)))
  · exact h.getLast?

theorem passed_stays (h : s.Bears (w.frames.map (·.module)) w.stack) (c : Completion) :
    (w.passed s c).2.Stays (w.frames.map (·.module)) := by
  unfold passed
  split
  · exact .inr rfl
  · exact h.getLast?

theorem arrive_stays {t : Traversal} (h : s.Bears (w.frames.map (·.module)) w.stack)
    (hw : w.frames ≠ []) : (arrive s w m t).2.Stays (w.frames.map (·.module)) := by
  unfold arrive
  split
  · exact .inr rfl
  next r _ =>
  split
  · exact h.getLast?
  · have hdetach : ∀ {K}, s.Calms K (if r.traversal t = .executing then detach s w m else s) := by
      intro K
      split
      · exact .detach s w m
      · exact .refl s
    exact back_stays (h.of_calms hdetach) (.inr rfl)
  · next t' _ =>
    refine .inr ?_
    change (m :: w.frames.map (·.module)).getLast? = _
    exact ((getLast?_cons_frames w m).resolve_left hw).symm

theorem advance_stays (h : s.Bears (w.frames.map (·.module)) w.stack) :
    (w.advance s).2.Stays (w.frames.map (·.module)) := by
  unfold advance
  split
  · exact .inl rfl
  · next m rest hf =>
    rw [hf] at h ⊢
    exact execute_stays (w := { w with frames := rest }) h
  · next m rest hf =>
    rw [hf] at h ⊢
    exact concludeSearched_stays (w := { w with frames := rest }) h
  · next m t r requests rest hf =>
    rw [hf] at h ⊢
    dsimp only
    split
    · exact arrive_stays (w := { w with frames := ⟨m, t, requests⟩ :: rest }) h (by simp)
    · exact .inr rfl

end EvaluationWalk

/-! ## What gets onto the stack -/

namespace Store

/-- A walk may enter the module. -/
def Enterable (s : Store) (m : ModuleId) : Prop :=
  ∃ r, s.source? m = some r ∧ r.status.isOpen = true

/-- A walk has entered the module, some time or other. -/
def Aloft (s : Store) (m : ModuleId) : Prop :=
  ∃ r, s.source? m = some r ∧ .asyncSubgraphsSearching ≤ r.status

/-- Whatever is on the stack of the walk after a step was there before, or was entered. -/
def Draws (s : Store) (stack : List ModuleId) (y : Store × EvaluationStep) : Prop :=
  ∀ x ∈ y.2.stack, x ∈ stack ∨ s.Enterable x ∧ y.1.Aloft x

variable {s s' : Store} {x : ModuleId}

theorem Draws.of_subset {stack : List ModuleId} {y : Store × EvaluationStep}
    (h : y.2.stack ⊆ stack) : s.Draws stack y := fun _ hx ↦ .inl (h hx)

theorem Aloft.tread (h : s.Aloft x) (hs : s.Treads s') : s'.Aloft x := by
  obtain ⟨r, hr, hle⟩ := h
  obtain ⟨r', hr', hrel⟩ := Each.after hs hr
  exact ⟨r', hr', hle.trans hrel.rises⟩

/-- All on the stack of the walk has been entered, also after a step. -/
theorem Draws.aloft {stack : List ModuleId} {y : Store × EvaluationStep} (h : s.Draws stack y)
    (hs : s.Treads y.1) (hstack : ∀ x ∈ stack, s.Aloft x) : ∀ x ∈ y.2.stack, y.1.Aloft x :=
  fun x hx ↦ (h x hx).elim (fun hx ↦ (hstack x hx).tread hs) And.right

end Store

theorem Traversal.searching_le_status (t : Traversal) : .asyncSubgraphsSearching ≤ t.status := by
  rw [Status.le_iff]
  cases t <;> decide

namespace EvaluationWalk

theorem back_stack (s : Store) (w : EvaluationWalk) (d : ModuleId) :
    (back s w d).2.stack = w.stack := by
  unfold back
  split
  · rfl
  · split <;> rfl

theorem concludeExecuted_stack (s : Store) (w : EvaluationWalk) (m : ModuleId) :
    (concludeExecuted s w m).2.stack ⊆ w.stack := by
  unfold concludeExecuted
  split
  · rw [back_stack]
    exact List.Subset.trans (List.dropWhile_suffix _).subset (popExecuted_subset s m w.stack)
  · rw [back_stack]
    exact List.Subset.refl _

theorem concludeSearched_stack (s : Store) (w : EvaluationWalk) (m : ModuleId) :
    (concludeSearched s w m).2.stack ⊆ w.stack := by
  rw [concludeSearched_eq]
  split
  · rw [back_stack]
    exact popSearched_subset _ m w.stack
  · rw [back_stack]
    exact List.Subset.refl _

theorem execute_stack (s : Store) (w : EvaluationWalk) (m : ModuleId) :
    (execute s w m).2.stack ⊆ w.stack := by
  unfold execute
  split
  · exact List.Subset.refl _
  · split
    · exact concludeExecuted_stack _ w m
    · split <;> exact List.Subset.refl _

theorem executed_stack (s : Store) (w : EvaluationWalk) (m : ModuleId)
    (capability : Option PromiseId) (c : Completion) :
    (w.executed s m capability c).2.stack ⊆ w.stack := by
  unfold executed
  split
  · exact concludeExecuted_stack s w m
  · exact concludeExecuted_stack _ w m
  · exact List.Subset.refl _

theorem passed_stack (s : Store) (w : EvaluationWalk) (c : Completion) :
    (w.passed s c).2.stack ⊆ w.stack := by
  unfold passed
  split <;> exact List.Subset.refl _

theorem arrive_draws (s : Store) (w : EvaluationWalk) (m : ModuleId) (t : Traversal) :
    s.Draws w.stack (arrive s w m t) := by
  unfold arrive
  split
  · exact .of_subset (List.Subset.refl _)
  next r hr =>
  split
  · exact .of_subset (List.Subset.refl _)
  · exact .of_subset (by rw [back_stack]; exact List.Subset.refl _)
  · next t' ha =>
    intro x hx
    rcases List.mem_cons.1 hx with rfl | hx
    · have hsettling := r.not_settling_of_enter ha
      have hevaluating := r.not_evaluating_of_arrival ha
      refine .inr ⟨⟨r, hr, ?_⟩, r.entered t' w.index, ?_, Traversal.searching_le_status t'⟩
      · cases hs : r.status <;> simp_all [Status.isSettling, Status.isOpen]
      · simp [push, Store.source?_modifySource, hr]
    · exact .inl hx

/-- A walk that starts has come to no other module yet. -/
theorem start_stack (s : Store) (m : ModuleId) : (start s m).2.stack ⊆ [m] := by
  unfold start arrive
  split
  · exact List.nil_subset _
  · split
    · exact List.nil_subset _
    · rw [back_stack]
      exact List.nil_subset _
    · exact List.Subset.refl _

theorem advance_draws (s : Store) (w : EvaluationWalk) : s.Draws w.stack (w.advance s) := by
  unfold advance
  split
  · exact .of_subset (List.nil_subset _)
  · exact .of_subset (execute_stack s { w with frames := _ } _)
  · exact .of_subset (concludeSearched_stack s { w with frames := _ } _)
  · dsimp only
    split
    · exact arrive_draws s { w with frames := _ } _ _
    · exact .of_subset (List.Subset.refl _)

end EvaluationWalk

end EcmaModules
