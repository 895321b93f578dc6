import EcmaModules.Proofs.Final
import Mathlib.Data.List.TakeWhile

/-!
# Where walks started

A module is under way from the time when a walk enters it until the walk is through with its
component, or fails. That this comes to an end rests on the module that the walk started at, its
origin. The origin is being executed, so no walk enters it again; the walk came to it first, so it
leads back to no earlier module and is the root of its component; and every component that is
complete before lies above it. So it stays at the bottom of path and stack until the walk is through
with it, and takes with it whatever is left on the stack.

Nothing is said here of what is on the stack twice, of components or of what modules wait for. So
the statements hold however walks get into each other's way.
-/

namespace EcmaModules

namespace Store

/-- A walk has come to the module and is not through with its component. -/
def Underway (s : Store) (m : ModuleId) : Prop :=
  ∃ r, s.source? m = some r ∧ r.status.isWalked = true

end Store

/-- The module is being executed, and the walk that does so came to it first. -/
def SourceText.IsOrigin (r : SourceText) : Prop :=
  r.status = .evaluating ∧ r.dfsIndex = 0 ∧ r.dfsAncestorIndex = 0

namespace Store

/-- A walk started at the module, and is not through with it. -/
def Origin (s : Store) (m : ModuleId) : Prop :=
  ∃ r, s.source? m = some r ∧ r.IsOrigin

theorem Origin.underway {s : Store} {m : ModuleId} (h : s.Origin m) : s.Underway m := by
  obtain ⟨r, hr, hs, -⟩ := h
  exact ⟨r, hr, by rw [hs]; rfl⟩

theorem Origin.isComponentRoot {s : Store} {m : ModuleId} (h : s.Origin m) :
    s.isComponentRoot m = true := by
  obtain ⟨r, hr, -, h0, h0'⟩ := h
  simp [Store.isComponentRoot, hr, h0, h0']

theorem Underway.not_settling {s : Store} {m : ModuleId} (h : s.Underway m) :
    (s.status? m).any (·.isSettling) = false := by
  obtain ⟨r, hr, hw⟩ := h
  cases hs : r.status <;> simp [hs, Status.isWalked] at hw <;>
    simp [Store.status?, hr, hs, Status.isSettling]

/-! ## Changes that are no walk's -/

/-- No module comes to be under way, and origins of a kind stay so. -/
structure Calms (K : ModuleId → Prop) (s s' : Store) : Prop where
  underway : ∀ x, s'.Underway x → s.Underway x
  origin : ∀ x, K x → s.Origin x → s'.Origin x

namespace Calms

variable {K K' : ModuleId → Prop} {s s' s'' : Store}

theorem refl (s : Store) : Calms K s s := ⟨fun _ ↦ id, fun _ _ ↦ id⟩

theorem trans (h : Calms K s s') (h' : Calms K s' s'') : Calms K s s'' :=
  ⟨fun x hx ↦ h.underway x (h'.underway x hx), fun x hK hx ↦ h'.origin x hK (h.origin x hK hx)⟩

theorem mono (hK : ∀ x, K' x → K x) (h : Calms K s s') : Calms K' s s' :=
  ⟨h.underway, fun x hx ↦ h.origin x (hK x hx)⟩

theorem of_outline (h : s'.outline = s.outline) : Calms K s s' := by
  refine ⟨?_, ?_⟩
  · rintro x ⟨r', hr', hw⟩
    obtain ⟨r, hr, heq⟩ := source?_of_outline (h ▸ outline_eq_some hr')
    have hstatus : r.status.outline = r'.status.outline := congrArg (·.status) heq
    refine ⟨r, hr, ?_⟩
    rw [← Status.isWalked_outline, hstatus, Status.isWalked_outline, hw]
  · rintro x - ⟨r, hr, hs, h0, h0'⟩
    obtain ⟨r', hr', heq⟩ := source?_of_outline (h.symm ▸ outline_eq_some hr)
    have hstatus : r'.status.outline = r.status.outline := congrArg (·.status) heq
    rw [hs, show Status.outline .evaluating = .evaluating from rfl,
      Status.outline_eq_evaluating] at hstatus
    have hw : r.status.isWalked = true := by rw [hs]; rfl
    have hw' : r'.status.isWalked = true := by rw [hstatus]; rfl
    refine ⟨r', hr', hstatus, ?_, ?_⟩
    · rw [← SourceText.outline_dfsIndex hw', heq, SourceText.outline_dfsIndex hw, h0]
    · rw [← SourceText.outline_dfsAncestorIndex hw', heq, SourceText.outline_dfsAncestorIndex hw,
        h0']

theorem of_modules (h : s'.modules = s.modules) : Calms K s s' := of_outline (outline_congr h)

theorem modifySource (s : Store) (m : ModuleId) {f : SourceText → SourceText}
    (hf : ∀ r, s.source? m = some r →
      ((f r).status.isWalked = true → r.status.isWalked = true) ∧
        (K m → r.IsOrigin → (f r).IsOrigin)) : Calms K s (s.modifySource m f) := by
  refine ⟨?_, ?_⟩
  · rintro x ⟨r', hr', hw⟩
    rw [source?_modifySource] at hr'
    split at hr'
    · next hx =>
      subst hx
      obtain ⟨r, hr, rfl⟩ := Option.map_eq_some_iff.1 hr'
      exact ⟨r, hr, (hf r hr).1 hw⟩
    · exact ⟨r', hr', hw⟩
  · rintro x hK ⟨r, hr, ho⟩
    by_cases hx : x = m
    · subst hx
      exact ⟨f r, by simp [source?_modifySource, hr], (hf r hr).2 hK ho⟩
    · exact ⟨r, by rw [source?_modifySource, if_neg hx, hr], ho⟩

/-- A change of one module that concerns neither its status nor where the walk came to it. -/
theorem modifySource_of_fields (s : Store) (m : ModuleId) {f : SourceText → SourceText}
    (hf : ∀ r, (f r).status = r.status ∧ (f r).dfsIndex = r.dfsIndex ∧
      (f r).dfsAncestorIndex = r.dfsAncestorIndex) : Calms K s (s.modifySource m f) := by
  refine modifySource s m fun r _ ↦ ?_
  obtain ⟨h1, h2, h3⟩ := hf r
  simp only [SourceText.IsOrigin, h1, h2, h3, imp_self, implies_true, and_self]

/-- An origin leads back to no earlier module than itself. -/
theorem lowerAncestor (s : Store) (m : ModuleId) (i : Nat) : Calms K s (s.lowerAncestor m i) := by
  refine modifySource s m fun r _ ↦ ⟨id, ?_⟩
  rintro - ⟨hs, h0, h0'⟩
  exact ⟨hs, h0, by simp [h0']⟩

/-- A module gets a status in which no walk is at it. -/
theorem setStatus (s : Store) {m : ModuleId} {status : Status} (h : status.isWalked = false)
    (hK : ∀ x, K x → x ≠ m) : Calms K s (s.setStatus m status) := by
  refine modifySource s m fun r _ ↦ ⟨fun hw ↦ ?_, fun hm ↦ absurd rfl (hK m hm)⟩
  exact absurd (h.symm.trans hw) Bool.false_ne_true

theorem foldl {α : Type} {f : Store → α → Store} {l : List α}
    (hf : ∀ s, ∀ a ∈ l, Calms K s (f s a)) (s : Store) : Calms K s (l.foldl f s) := by
  induction l generalizing s with
  | nil => exact refl s
  | cons a l ih =>
    refine (hf s a List.mem_cons_self).trans (ih (fun s b hb ↦ ?_) _)
    exact hf s b (List.mem_cons_of_mem _ hb)

/-! ### What walks do besides -/

theorem await (s : Store) (m d : ModuleId) : Calms K s (EvaluationWalk.await s m d) := by
  rcases EvaluationWalk.await_cases s m d with h | ⟨_, _, _, _, _, _, h⟩
  · rw [h]
    exact refl s
  · rw [h]
    refine (modifySource_of_fields s m ?_).trans (modifySource_of_fields _ d ?_)
    all_goals exact fun _ ↦ ⟨rfl, rfl, rfl⟩

theorem detach (s : Store) (w : EvaluationWalk) (m : ModuleId) :
    Calms K s (EvaluationWalk.detach s w m) := by
  unfold EvaluationWalk.detach
  split
  · exact modifySource_of_fields s m fun _ ↦ ⟨rfl, rfl, rfl⟩
  · exact refl s

theorem leave (s : Store) (m d : ModuleId) : Calms K s (EvaluationWalk.leave s m d).2 := by
  unfold EvaluationWalk.leave
  split
  · split
    · exact (lowerAncestor s m _).trans (await _ m d)
    · split
      · exact await s m d
      · dsimp only
        split
        · exact refl s
        · exact await s m _
  · exact refl s

theorem holdModule (s : Store) (m : ModuleId) : Calms K s (s.holdModule m) :=
  modifySource_of_fields s m fun _ ↦ ⟨rfl, rfl, rfl⟩

theorem holdSearched (s : Store) (m : ModuleId) : Calms K s (s.holdSearched m) :=
  modifySource_of_fields s m fun r ↦ by split <;> exact ⟨rfl, rfl, rfl⟩

theorem startAsync (s : Store) (m : ModuleId) : Calms K s (s.startAsync m).2 :=
  (holdModule s m).trans (of_modules (modules_react _ _ _))

theorem newCapability (s : Store) (m : ModuleId) : Calms K s (s.newCapability m).2 := by
  have hpromise : Calms K s s.newPromise.2 := of_modules rfl
  exact hpromise.trans (modifySource_of_fields _ m fun _ ↦ ⟨rfl, rfl, rfl⟩)

end Calms

/-! ## Changes by a walk -/

/-- A walk whose stack changes: what it takes off is under way no longer, and only what it puts on
comes to be under way. The origins of other walks stay what they are. -/
structure Shifts (s s' : Store) (stack stack' : List ModuleId) : Prop where
  underway : ∀ x, s'.Underway x → x ∈ stack' ∨ (s.Underway x ∧ x ∉ stack)
  origin : ∀ x, s.Origin x → x ∉ stack → s'.Origin x ∧ x ∉ stack'

namespace Shifts

variable {s s' s'' : Store} {stack stack' stack'' : List ModuleId}

theorem trans (h : s.Shifts s' stack stack') (h' : s'.Shifts s'' stack' stack'') :
    s.Shifts s'' stack stack'' := by
  refine ⟨fun x hx ↦ ?_, fun x hx hnot ↦ ?_⟩
  · rcases h'.underway x hx with hmem | ⟨hx', hnot⟩
    · exact .inl hmem
    · exact .inr ((h.underway x hx').resolve_left hnot)
  · obtain ⟨hx', hnot'⟩ := h.origin x hx hnot
    exact h'.origin x hx' hnot'

/-- The walk leaves its stack as it is. -/
theorem of_calms (h : s.Calms (· ∉ stack) s') : s.Shifts s' stack stack := by
  refine ⟨fun x hx ↦ ?_, fun x hx hnot ↦ ⟨h.origin x hnot hx, hnot⟩⟩
  by_cases hmem : x ∈ stack
  · exact .inl hmem
  · exact .inr ⟨h.underway x hx, hmem⟩

theorem refl (s : Store) (stack : List ModuleId) : s.Shifts s stack stack := of_calms (.refl s)

/-- Modules that are not under way are taken off. -/
theorem dropWhile (s : Store) {p : ModuleId → Bool} (hp : ∀ x, s.Underway x → p x = false)
    (stack : List ModuleId) : s.Shifts s stack (stack.dropWhile p) := by
  refine ⟨fun x hx ↦ ?_, fun x hx hnot ↦ ⟨hx, fun hmem ↦ ?_⟩⟩
  · by_cases hmem : x ∈ stack
    · rw [← List.takeWhile_append_dropWhile (p := p) (l := stack), List.mem_append] at hmem
      refine .inl (hmem.resolve_left fun htake ↦ ?_)
      exact absurd ((hp x hx).symm.trans (List.mem_takeWhile_imp htake)) Bool.false_ne_true
    · exact .inr ⟨hx, hmem⟩
  · exact hnot ((List.dropWhile_suffix p).subset hmem)

end Shifts

theorem source?_foldl_of_not_mem (f : SourceText → SourceText) {ms : List ModuleId} {x : ModuleId}
    (hx : x ∉ ms) (s : Store) :
    (ms.foldl (fun s m ↦ s.modifySource m f) s).source? x = s.source? x := by
  induction ms generalizing s with
  | nil => rfl
  | cons m ms ih =>
    rw [List.mem_cons, not_or] at hx
    rw [List.foldl_cons, ih hx.2, source?_modifySource, if_neg hx.1]

/-- Modules that are taken off the top of a stack and get a status in which no walk is at them. -/
theorem Shifts.take {f : SourceText → SourceText} (hf : ∀ r, (f r).status.isWalked = false)
    (s : Store) (above below : List ModuleId) :
    s.Shifts (above.foldl (fun s m ↦ s.modifySource m f) s) (above ++ below) below := by
  have hnot : ∀ (above : List ModuleId) (s : Store) x,
      (above.foldl (fun s m ↦ s.modifySource m f) s).Underway x → x ∉ above := by
    intro above
    induction above with
    | nil => exact fun s x _ ↦ List.not_mem_nil
    | cons m above ih =>
      intro s x hx hmem
      rw [List.foldl_cons] at hx
      have hx' := ih _ x hx
      obtain rfl := (List.mem_cons.1 hmem).resolve_right hx'
      obtain ⟨r, hr, hw⟩ := hx
      rw [source?_foldl_of_not_mem f hx', source?_modifySource, if_pos rfl] at hr
      obtain ⟨q, -, rfl⟩ := Option.map_eq_some_iff.1 hr
      exact absurd ((hf q).symm.trans hw) Bool.false_ne_true
  refine ⟨fun x hx ↦ ?_, ?_⟩
  · have hx' := hnot above s x hx
    by_cases hmem : x ∈ below
    · exact .inl hmem
    · obtain ⟨r, hr, hw⟩ := hx
      rw [source?_foldl_of_not_mem f hx'] at hr
      exact .inr ⟨⟨r, hr, hw⟩, by simp [hx', hmem]⟩
  · rintro x ⟨r, hr, ho⟩ hx
    rw [List.mem_append, not_or] at hx
    exact ⟨⟨r, by rw [source?_foldl_of_not_mem f hx.1, hr], ho⟩, hx.2⟩

theorem Shifts.completeMembers (s : Store) (root : ModuleId) (above below : List ModuleId) :
    s.Shifts (s.completeMembers root above) (above ++ below) below := by
  refine Shifts.take (f := fun r ↦ r.complete root) (fun r ↦ ?_) s above below
  change (EvaluationWalk.completeStatus r).isWalked = false
  by_cases hp : r.asyncState = .pending <;> cases hs : r.status <;>
    simp [EvaluationWalk.completeStatus, hs, hp, Status.isWalked]

theorem Shifts.failModules (s : Store) (stack : List ModuleId) (e : ErrorId) :
    s.Shifts (s.failModules stack e) stack [] := by
  have h := Shifts.take (f := fun r ↦ r.fail e) (fun _ ↦ rfl) s stack []
  rwa [List.append_nil] at h

/-! ## Path and stack -/

/-- A path and a stack as walks have them: both end in the origin of the walk, which is nowhere else
on them, or the walk is at its end and both are empty. -/
inductive Bears (s : Store) : List ModuleId → List ModuleId → Prop where
  | bare : s.Bears [] []
  | under {o : ModuleId} {path stack : List ModuleId} :
      s.Origin o → o ∉ path → o ∉ stack → s.Bears (path ++ [o]) (stack ++ [o])

namespace Bears

variable {s s' : Store} {m o root : ModuleId} {path stack above below : List ModuleId}

theorem stack_eq_nil (h : s.Bears path stack) (hp : path = []) : stack = [] := by
  cases h with
  | bare => rfl
  | under => exact absurd hp (by simp)

theorem mono (h : s.Bears path stack) (hs : ∀ o, s.Origin o → path.getLast? = some o → s'.Origin o) :
    s'.Bears path stack := by
  cases h with
  | bare => exact .bare
  | under ho hp hst => exact .under (hs _ ho (by simp)) hp hst

theorem of_calms (h : s.Bears path stack) (hs : s.Calms (fun _ ↦ True) s') :
    s'.Bears path stack :=
  h.mono fun o ho _ ↦ hs.origin o trivial ho

/-- What is at the bottom of the path is an origin, and on the stack. -/
theorem origin (h : s.Bears path stack) (ho : path.getLast? = some o) : s.Origin o ∧ o ∈ stack := by
  cases h with
  | bare => exact nomatch ho
  | under h hp hst =>
    obtain rfl : _ = o := by simpa using ho
    exact ⟨h, by simp⟩

/-- The walk comes to another module. -/
theorem push (h : s.Bears path stack) (hp : path ≠ []) (hm : ¬s.Origin m) :
    s.Bears (m :: path) (m :: stack) := by
  cases h with
  | bare => exact absurd rfl hp
  | @under o path stack ho hpath hstack =>
    have hne : o ≠ m := fun h ↦ hm (h ▸ ho)
    rw [← List.cons_append, ← List.cons_append]
    exact .under ho (by simp [hne, hpath]) (by simp [hne, hstack])

/-- The walk leaves a module, but not its origin. -/
theorem tail (h : s.Bears (m :: path) stack) (hm : ¬(s.Origin m ∧ m ∈ stack)) :
    s.Bears path stack := by
  generalize hpath : m :: path = path' at h
  cases h with
  | bare => exact nomatch hpath
  | @under o path' stack ho hp hst =>
    rcases path' with _ | ⟨m', path'⟩
    · obtain ⟨rfl, -⟩ := List.cons.inj hpath
      exact absurd ⟨ho, by simp⟩ hm
    · obtain ⟨rfl, rfl⟩ := List.cons.inj hpath
      exact .under ho (fun h ↦ hp (List.mem_cons_of_mem _ h)) hst

/-- The walk takes off its stack what lies above a module, and the module. If that is its origin,
nothing is left. -/
theorem pop (h : s.Bears (m :: path) (above ++ m :: below)) :
    (s.completeMembers root (above ++ [m])).Bears path below := by
  generalize hpath : m :: path = path' at h
  generalize hstack : above ++ m :: below = stack' at h
  cases h with
  | bare => exact nomatch hpath
  | @under o path' stack ho hp hst =>
    rcases List.eq_nil_or_concat below with rfl | ⟨below, o', rfl⟩
    · -- the module is at the bottom of the stack, so it is the origin
      obtain ⟨rfl, hom⟩ := List.append_inj' hstack rfl
      obtain rfl : m = o := by simpa using hom
      rcases path' with _ | ⟨m', path'⟩
      · obtain ⟨-, rfl⟩ := List.cons.inj hpath
        exact .bare
      · obtain ⟨rfl, -⟩ := List.cons.inj hpath
        exact absurd List.mem_cons_self hp
    · rw [List.concat_eq_append, ← List.cons_append, ← List.append_assoc] at hstack
      obtain ⟨rfl, ho'⟩ := List.append_inj' hstack rfl
      obtain rfl : o' = o := by simpa using ho'
      rw [List.mem_append, List.mem_cons, not_or, not_or] at hst
      rcases path' with _ | ⟨m', path'⟩
      · obtain ⟨rfl, -⟩ := List.cons.inj hpath
        exact absurd rfl hst.2.1
      · obtain ⟨rfl, rfl⟩ := List.cons.inj hpath
        rw [List.concat_eq_append]
        refine .under ?_ (fun h ↦ hp (List.mem_cons_of_mem _ h)) hst.2.2
        have hnot : o' ∉ above ++ [m] := by simp [hst.1, hst.2.1]
        obtain ⟨r, hr, hr'⟩ := ho
        refine ⟨r, ?_, hr'⟩
        rw [← hr]
        exact source?_foldl_of_not_mem (fun r ↦ r.complete root) hnot s

theorem dropWhile (h : s.Bears path stack) {p : ModuleId → Bool}
    (hp : ∀ x, s.Underway x → p x = false) : s.Bears path (stack.dropWhile p) := by
  cases h with
  | bare => exact .bare
  | @under o path stack ho hpath hstack =>
    have hdrop : (stack ++ [o]).dropWhile p = stack.dropWhile p ++ [o] := by
      rw [List.dropWhile_append]
      split
      · next hnil => simp [List.isEmpty_iff.1 hnil, hp o ho.underway]
      · rfl
    rw [hdrop]
    exact .under ho hpath fun hmem ↦ hstack ((List.dropWhile_suffix p).subset hmem)

end Bears

end Store

/-! ## Steps of a walk -/

namespace EvaluationStep

/-- The path of the walk after a step. -/
def path : EvaluationStep → List ModuleId
  | .done | .failed _ _ => []
  | .go w | .synthetic _ w => w.frames.map (·.module)
  | .execute m _ w => m :: w.frames.map (·.module)

/-- The stack of the walk after a step. -/
def stack : EvaluationStep → List ModuleId
  | .done => []
  | .failed _ left => left
  | .go w | .synthetic _ w | .execute _ _ w => w.stack

end EvaluationStep

/-- What a walk with the stack has come to in a step. -/
structure Store.Comes (s : Store) (stack : List ModuleId) (x : Store × EvaluationStep) : Prop where
  shifts : s.Shifts x.1 stack x.2.stack
  bears : (∀ e left, x.2 ≠ .failed e left) → x.1.Bears x.2.path x.2.stack

theorem SourceText.not_evaluating_of_arrival {r : SourceText} {t t' : Traversal}
    (h : r.arrival t = .enter t') : r.status ≠ .evaluating := by
  intro hs
  unfold arrival at h
  rw [hs] at h
  cases hw : r.traversal t <;> rw [hw] at h <;> exact nomatch h

/-- Nothing but executing leads to modules that are searched. -/
theorem SourceText.executing_of_arrival {r : SourceText} {t' : Traversal}
    (h : r.arrival .executing = .enter t') : t' = .executing := by
  have ht : r.traversal .executing = .executing := by
    unfold traversal
    split <;> rfl
  unfold arrival at h
  rw [ht] at h
  cases hs : r.status <;> rw [hs] at h <;> dsimp only at h <;>
    first | exact (Arrival.enter.inj h).symm | (split at h <;> exact nomatch h) | exact nomatch h

namespace Store.Comes

variable {s s' : Store} {stack stack' left : List ModuleId} {e : ErrorId}
  {x : Store × EvaluationStep} {w : EvaluationWalk}

theorem after (h : s'.Comes stack' x) (hs : s.Shifts s' stack stack') : s.Comes stack x :=
  ⟨hs.trans h.shifts, h.bears⟩

/-- The walk has failed with its stack as it was. -/
theorem failed (h : s.Calms (· ∉ stack) s') : s.Comes stack (s', .failed e stack) :=
  ⟨.of_calms h, fun hnot ↦ absurd rfl (hnot e stack)⟩

/-- The walk goes on with its stack as it was. -/
theorem go (h : s.Bears (w.frames.map (·.module)) w.stack) : s.Comes w.stack (s, .go w) :=
  ⟨.refl s w.stack, fun _ ↦ h⟩

end Store.Comes

namespace EvaluationWalk

variable {s : Store} {w : EvaluationWalk} {m d : ModuleId}

theorem back_comes (h : s.Bears (w.frames.map (·.module)) w.stack) :
    s.Comes w.stack (back s w d) := by
  unfold back
  split
  · exact .go h
  · next f _ _ =>
    have hcalm : ∀ {K}, s.Calms K (leave s f.module d).2 := .leave s f.module d
    split
    · next heq =>
      rw [heq] at hcalm
      exact Store.Comes.after (.go (h.of_calms hcalm)) (.of_calms hcalm)
    · next heq =>
      rw [heq] at hcalm
      exact .failed hcalm

/-- A component is taken off down to the lowest place of its root. -/
theorem exists_last_of_mem {l : List ModuleId} (h : m ∈ l) :
    ∃ above below, l = above ++ m :: below ∧ m ∉ below := by
  obtain ⟨above, below, heq, hnot⟩ := List.eq_append_cons_of_mem (List.mem_reverse.2 h)
  exact ⟨below.reverse, above.reverse, by simp [← List.reverse_inj, heq], by simpa using hnot⟩

/-- The walk is through with a module, of which only the ends of components are left to say. -/
theorem conclude_comes (h : s.Bears (m :: w.frames.map (·.module)) w.stack)
    (hclose : closesComponent s w m = false) : s.Comes w.stack (back s w m) := by
  refine back_comes (h.tail ?_)
  rintro ⟨ho, hm⟩
  simp [closesComponent, ho.isComponentRoot, hm] at hclose

theorem concludeExecuted_comes (h : s.Bears (m :: w.frames.map (·.module)) w.stack) :
    s.Comes w.stack (concludeExecuted s w m) := by
  unfold concludeExecuted
  cases hclose : closesComponent s w m with
  | false => exact conclude_comes h hclose
  | true =>
    have hm : m ∈ w.stack := by simpa using (Bool.and_eq_true_iff.1 hclose).2
    obtain ⟨above, below, hstack, hnot⟩ := exists_last_of_mem hm
    rw [hstack] at h ⊢
    simp only [if_true, popExecuted_append s hnot]
    have hdrop : ∀ x, (s.completeMembers m (above ++ [m])).Underway x →
        (((s.completeMembers m (above ++ [m])).status? x).any (·.isSettling)) = false :=
      fun x hx ↦ hx.not_settling
    have hpop := Store.Shifts.completeMembers s m (above ++ [m]) below
    rw [List.append_assoc] at hpop
    exact (back_comes (h.pop.dropWhile hdrop)).after (hpop.trans (.dropWhile _ hdrop below))

theorem concludeSearched_comes (h : s.Bears (m :: w.frames.map (·.module)) w.stack) :
    s.Comes w.stack (concludeSearched s w m) := by
  rw [concludeSearched_eq]
  have hhold : ∀ {K}, s.Calms K (s.holdSearched m) := .holdSearched s m
  replace h := h.of_calms hhold
  refine Store.Comes.after ?_ (.of_calms hhold)
  cases hclose : closesComponent (s.holdSearched m) w m with
  | false => exact conclude_comes h hclose
  | true =>
    have hm : m ∈ w.stack := by simpa using (Bool.and_eq_true_iff.1 hclose).2
    obtain ⟨above, below, hstack, hnot⟩ := List.eq_append_cons_of_mem hm
    rw [hstack] at h ⊢
    simp only [if_true, popSearched_append _ below hnot]
    have hpop := Store.Shifts.completeMembers (s.holdSearched m) m (above ++ [m]) below
    rw [List.append_assoc] at hpop
    exact (back_comes h.pop).after hpop

theorem execute_comes (h : s.Bears (m :: w.frames.map (·.module)) w.stack) :
    s.Comes w.stack (execute s w m) := by
  unfold execute
  split
  · next hm =>
    refine .go (h.tail ?_)
    rintro ⟨⟨r, hr, -⟩, -⟩
    exact nomatch hm.symm.trans hr
  · split
    · have hhold : ∀ {K}, s.Calms K (s.holdModule m) := .holdModule s m
      exact (concludeExecuted_comes (h.of_calms hhold)).after (.of_calms hhold)
    · split
      · have hstart : ∀ {K}, s.Calms K (s.startAsync m).2 := .startAsync s m
        exact ⟨.of_calms hstart, fun _ ↦ h.of_calms hstart⟩
      · exact ⟨.refl s w.stack, fun _ ↦ h⟩

theorem executed_comes (h : s.Bears (m :: w.frames.map (·.module)) w.stack)
    (capability : Option PromiseId) (c : Completion) :
    s.Comes w.stack (w.executed s m capability c) := by
  unfold executed
  split
  · exact concludeExecuted_comes h
  · next e p =>
    have hreject : ∀ {K}, s.Calms K (s.reject p e) := .of_modules (Store.modules_settle _ _ _)
    exact (concludeExecuted_comes (h.of_calms hreject)).after (.of_calms hreject)
  · exact .failed (.refl s)

theorem passed_comes (h : s.Bears (w.frames.map (·.module)) w.stack) (c : Completion) :
    s.Comes w.stack (w.passed s c) := by
  unfold passed
  split
  · exact .go h
  · exact .failed (.refl s)

theorem source?_push_of_ne (s : Store) (w : EvaluationWalk) {x : ModuleId} (hx : x ≠ m)
    (t : Traversal) : (push s w m t).1.source? x = s.source? x := by
  simp only [push, Store.source?_modifySource, if_neg hx]

/-- A module that a walk enters is no origin, and nothing changes but that it comes to be under
way. -/
theorem push_shifts {t t' : Traversal} {r : SourceText} (hm : s.source? m = some r)
    (ha : r.arrival t = .enter t') :
    s.Shifts (push s w m t').1 w.stack (m :: w.stack) ∧
      ∀ o, s.Origin o → o ≠ m ∧ (push s w m t').1.Origin o := by
  have hnot : ∀ o, s.Origin o → o ≠ m := by
    rintro o ⟨q, hq, hs, -⟩ rfl
    obtain rfl : r = q := Option.some.inj (hm.symm.trans hq)
    exact r.not_evaluating_of_arrival ha hs
  have horigin : ∀ o, s.Origin o → (push s w m t').1.Origin o := fun o ho ↦ by
    have hne := hnot o ho
    obtain ⟨q, hq, ho⟩ := ho
    exact ⟨q, (source?_push_of_ne s w hne t').trans hq, ho⟩
  refine ⟨⟨?_, fun x ho hx ↦ ⟨horigin x ho, by simp [hnot x ho, hx]⟩⟩,
    fun o ho ↦ ⟨hnot o ho, horigin o ho⟩⟩
  rintro x ⟨q, hq, hw⟩
  by_cases hx : x = m
  · exact .inl (hx ▸ List.mem_cons_self)
  · rw [source?_push_of_ne s w hx] at hq
    by_cases hmem : x ∈ w.stack
    · exact .inl (List.mem_cons_of_mem _ hmem)
    · exact .inr ⟨⟨q, hq, hw⟩, hmem⟩

/-- What a walk does with a module that it does not enter. -/
theorem pass_comes (h : s.Bears (w.frames.map (·.module)) w.stack) (r : SourceText)
    (t : Traversal) :
    s.Comes w.stack (back (if r.traversal t = .executing then detach s w m else s) w m) := by
  have hdetach : ∀ {K}, s.Calms K (if r.traversal t = .executing then detach s w m else s) := by
    intro K
    split
    · exact .detach s w m
    · exact .refl s
  exact (back_comes (h.of_calms hdetach)).after (.of_calms hdetach)

theorem arrive_comes {t : Traversal} (h : s.Bears (w.frames.map (·.module)) w.stack)
    (hw : w.frames ≠ []) : s.Comes w.stack (arrive s w m t) := by
  unfold arrive
  split
  · exact ⟨.refl s w.stack, fun _ ↦ h⟩
  next r hm =>
  split
  · exact .failed (.refl s)
  · exact pass_comes h r t
  · next ha =>
    obtain ⟨hshifts, horigin⟩ := push_shifts (w := w) hm ha
    refine ⟨hshifts, fun _ ↦ ?_⟩
    exact (h.push (by simpa using hw) fun ho ↦ (horigin m ho).1 rfl).mono
      fun o ho _ ↦ (horigin o ho).2

/-- The module that a walk starts at, if it is entered, is the origin of the walk. -/
theorem start_comes (s : Store) (m : ModuleId) : s.Comes [] (start s m) := by
  have h : s.Bears (({} : EvaluationWalk).frames.map (·.module)) ({} : EvaluationWalk).stack := .bare
  unfold start arrive
  split
  · exact ⟨.refl s [], fun _ ↦ .bare⟩
  next r hm =>
  split
  · exact .failed (.refl s)
  · exact pass_comes h r .executing
  · next t' ha =>
    obtain rfl := r.executing_of_arrival ha
    refine ⟨(push_shifts (w := {}) hm ha).1, fun _ ↦ ?_⟩
    change Store.Bears _ ([] ++ [m]) ([] ++ [m])
    refine .under ?_ List.not_mem_nil List.not_mem_nil
    exact ⟨r.entered .executing 0, by simp [push, Store.source?_modifySource, hm], rfl, rfl, rfl⟩

theorem advance_comes (h : s.Bears (w.frames.map (·.module)) w.stack) :
    s.Comes w.stack (w.advance s) := by
  unfold advance
  split
  · next hf =>
    rw [h.stack_eq_nil (by simp [hf])]
    exact ⟨.refl s [], fun _ ↦ .bare⟩
  · next m rest hf =>
    rw [hf] at h
    exact execute_comes (w := { w with frames := rest }) h
  · next m rest hf =>
    rw [hf] at h
    exact concludeSearched_comes (w := { w with frames := rest }) h
  · next m t r requests rest hf =>
    rw [hf] at h
    dsimp only
    split
    · exact arrive_comes (w := { w with frames := ⟨m, t, requests⟩ :: rest }) h (by simp)
    · exact .go (w := { w with frames := ⟨m, t, requests⟩ :: rest }) h

end EvaluationWalk

/-- What a step of a walk leads to. If the walk fails, what is left on its stack fails with it. -/
theorem Store.Comes.next {s : Store} {stack : List ModuleId} {x : Store × EvaluationStep}
    (h : s.Comes stack x) (goal : EvaluationGoal) :
    s.Shifts (x.2.next x.1 goal).1 stack
        ((x.2.next x.1 goal).2.tours.flatMap (·.walk.stack)) ∧
      ∀ τ ∈ (x.2.next x.1 goal).2.tours, (x.2.next x.1 goal).1.Bears τ.path τ.walk.stack := by
  obtain ⟨s', step⟩ := x
  have hshifts := h.shifts
  cases step with
  | done =>
    have hfinish : ∀ {K}, s'.Calms K (goal.finish s').1 := .of_outline (outline_finish s' goal)
    have htours : (goal.finish s').2.tours = [] := by cases goal <;> rfl
    simp only [EvaluationStep.next, htours]
    exact ⟨hshifts.trans (.of_calms hfinish), by simp⟩
  | failed e left =>
    have hfail : ∀ {K}, (s'.failModules left e).Calms K (goal.fail s' left e).1 :=
      .of_outline (outline_fail s' left e goal)
    have htours : (goal.fail s' left e).2.tours = [] := by cases goal <;> rfl
    simp only [EvaluationStep.next, htours]
    exact ⟨(hshifts.trans (.failModules s' left e)).trans (.of_calms hfail), by simp⟩
  | go w =>
    refine ⟨?_, List.forall_mem_singleton.2 (h.bears (by simp))⟩
    change s.Shifts s' stack (w.stack ++ [])
    rwa [List.append_nil]
  | synthetic m w =>
    refine ⟨?_, List.forall_mem_singleton.2 (h.bears (by simp))⟩
    change s.Shifts s' stack (w.stack ++ [])
    rwa [List.append_nil]
  | execute m capability w =>
    refine ⟨?_, List.forall_mem_singleton.2 (h.bears (by simp))⟩
    change s.Shifts s' stack (w.stack ++ [])
    rwa [List.append_nil]

end EcmaModules
