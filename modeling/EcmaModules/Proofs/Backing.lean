import EcmaModules.Proofs.Spreading

/-!
# Nobody waits in vain

The count of a module is not less than the number of those that will lower it; that is part of the
invariant of evaluation, and keeps modules from being executed too early. Here is the other half: the
count is not greater either. So a module that waits and has not been executed either was set free or
waits for a module that is not over.

That does not hold of every module. When the module that stands for a component has failed, the others
are not told any more that what they wait for is over, and their counts stay as they are. And it takes
runs in which a walk that fails leaves nobody behind on the stack of no walk.

The delicate point is a module that nobody waits for any more when the walk is through with it. It
owes nothing, since only those that wait themselves are waited for, and they keep waiting when a walk
enters them once more.
-/

namespace EcmaModules

/-! ## Counts -/

/-- The count of a module is not greater than the number of modules that will lower it. -/
def Owed (o : Outline) (Z G : List ModuleId) (x : ModuleId) (n : Nat) : Prop :=
  ∃ l : List ModuleId, l.Nodup ∧ (∀ d ∈ l, Owes o Z d x) ∧ n ≤ l.length + G.count x

namespace Owed

variable {o o' : Outline} {Z Z' G G' : List ModuleId} {m x : ModuleId} {n n' : Nat}

theorem zero (o : Outline) (Z G : List ModuleId) (x : ModuleId) : Owed o Z G x 0 :=
  ⟨[], List.nodup_nil, nofun, Nat.zero_le _⟩

theorem mono (h : Owed o Z G x n) (ho : ∀ d, Owes o Z d x → Owes o' Z' d x)
    (hG : G.count x ≤ G'.count x) (hn : n' ≤ n) : Owed o' Z' G' x n' := by
  obtain ⟨l, hnodup, hl, hle⟩ := h
  exact ⟨l, hnodup, fun d hd ↦ ho d (hl d hd), by omega⟩

/-- A single module has changed, which still owes what it did, or has paid. -/
theorem pay (h : Owed o Z G x n) (hne : ∀ y, y ≠ m → o' y = o y)
    (hZ : ∀ y, y ≠ m → y ∈ Z' → y ∈ Z)
    (hm : Owes o Z m x → Owes o' Z' m x ∨ G.count x + 1 ≤ G'.count x)
    (hG : G.count x ≤ G'.count x) : Owed o' Z' G' x n := by
  have hothers : ∀ d, d ≠ m → Owes o Z d x → Owes o' Z' d x := fun d hd ↦
    Sound.owes_of_ne (fun y hy ↦ (hne y hy).symm) hZ hd
  by_cases hpaid : Owes o Z m x ∧ ¬Owes o' Z' m x
  · obtain ⟨howes, hnot⟩ := hpaid
    have hcount := (hm howes).resolve_left hnot
    obtain ⟨l, hnodup, hl, hle⟩ := h
    refine ⟨l.erase m, hnodup.erase m, fun d hd ↦ ?_, ?_⟩
    · obtain ⟨hdm, hd⟩ := hnodup.mem_erase_iff.1 hd
      exact hothers d hdm (hl d hd)
    · have hlength : l.length ≤ (l.erase m).length + 1 := by
        rw [List.length_erase]
        split <;> omega
      omega
  · rw [not_and_not_right] at hpaid
    refine h.mono (fun d hd ↦ ?_) hG (Nat.le_refl _)
    by_cases hdm : d = m
    · subst hdm
      exact hpaid hd
    · exact hothers d hdm hd

/-- Somebody owes, if the module waits for anybody and nothing is due. -/
theorem exists_owes (h : Owed o Z [] x n) (hn : 0 < n) : ∃ d, Owes o Z d x := by
  obtain ⟨l, -, hl, hle⟩ := h
  rcases l with _ | ⟨d, l⟩
  · rw [List.length_nil, List.count_nil] at hle
    omega
  · exact ⟨d, hl d List.mem_cons_self⟩

end Owed

/-! ## The invariant -/

/-- The module was set free, or its body was called. -/
def Released (F : List ModuleId) (H : List Event) (x : ModuleId) : Prop :=
  x ∈ F ∨ ∃ c, .began x c ∈ H

/-- The module is told when what it waits for is over: unless a walk is at it, the module that stands
for its component has not failed. -/
def Heeded (o : Outline) (x : ModuleId) (r : SourceText) : Prop :=
  r.status.isParked = true → ∀ q, o (r.cycleRoot.getD x) = some q → q.evaluationError = none

/-- Errors stay. -/
def KeepsErrors (o o' : Outline) : Prop :=
  ∀ x r, o x = some r → ∃ r', o' x = some r' ∧ (r'.evaluationError = none → r.evaluationError = none)

/-- A module that is told now was so before. -/
theorem Heeded.before {o o' : Outline} {x : ModuleId} {r r' : SourceText} (h : Heeded o' x r')
    (ho : KeepsErrors o o') (hr : r.status.isParked = true →
      r'.status.isParked = true ∧ r'.cycleRoot = r.cycleRoot) : Heeded o x r := by
  intro hp q hq
  obtain ⟨hp', hroot⟩ := hr hp
  obtain ⟨q', hq', herror⟩ := ho _ q hq
  exact herror (h hp' q' (hroot ▸ hq'))

/-- Whatever a module waits for will come. -/
structure Backed (o : Outline) (F X G : List ModuleId) (H : List Event) : Prop where
  owed : ∀ x r, o x = some r → Heeded o x r → Owed o (F ++ X) G x r.waitsFor
  rested : ∀ x r, o x = some r → Released F H x → r.pendingAsync = 0
  pending : ∀ x r, o x = some r → r.asyncState = .pending → Released F H x ∨ 0 < r.pendingAsync
  parented : ∀ x r, o x = some r → r.asyncParents ≠ [] → r.status.isWaiting = true →
    r.asyncState = .pending ∨ 0 < r.pendingAsync

theorem SourceText.waitsFor_of_pendingAsync {r : SourceText} (h : r.pendingAsync = 0) :
    r.waitsFor = 0 := by
  unfold waitsFor
  split
  · exact h
  · rfl

theorem SourceText.waitsFor_of_not_waiting {r : SourceText} (h : r.status.isWaiting = false) :
    r.waitsFor = 0 := by
  simp [waitsFor, h]

theorem SourceText.waitsFor_lessened (r : SourceText) :
    ({ r with pendingAsync := r.pendingAsync - 1 } : SourceText).outline.waitsFor =
      r.outline.waitsFor - 1 := by
  change (if r.status.outline.isWaiting then r.pendingAsync - 1 else 0) =
    (if r.status.outline.isWaiting then r.pendingAsync else 0) - 1
  split <;> rfl

theorem SourceText.waitsFor_of_waiting {r : SourceText} (h : r.status.isWaiting = true) :
    r.waitsFor = r.pendingAsync := by
  simp [waitsFor, h]

namespace Backed

variable {o o' : Outline} {F F' X X' G G' : List ModuleId} {H H' : List Event} {m : ModuleId}
  {r r' : SourceText}

/-- A change of a single module makes no difference to what is told. -/
theorem keepsErrors_of_ne (hm : o m = some r) (hm' : o' m = some r')
    (hne : ∀ x, x ≠ m → o' x = o x) (herror : r'.evaluationError = none → r.evaluationError = none) :
    KeepsErrors o o' := by
  intro x p hp
  by_cases hx : x = m
  · subst hx
    obtain rfl := Option.some.inj (hm.symm.trans hp)
    exact ⟨r', hm', herror⟩
  · exact ⟨p, (hne x hx).trans hp, id⟩

/-- The outlines differ only in what does not matter here. -/
theorem of_alike (h : Backed o F X G H)
    (hx : ∀ x r', o' x = some r' → ∃ r, o x = some r ∧ Alike r r' ∧
      (r.status.isParked = true → r'.cycleRoot = r.cycleRoot))
    (hx' : ∀ x r, o x = some r → ∃ r', o' x = some r' ∧ Alike r r') : Backed o' F X G H where
  owed x r' hr' hheeded := by
    obtain ⟨r, hr, ha, hroot⟩ := hx x r' hr'
    refine (h.owed x r hr (hheeded.before (fun y q hq ↦ ?_) fun hp ↦ ⟨ha.status ▸ hp, hroot hp⟩)).mono
      ?_ (Nat.le_refl _) ?_
    · obtain ⟨q', hq', ha'⟩ := hx' y q hq
      exact ⟨q', hq', fun he ↦ ha'.evaluationError ▸ he⟩
    · rintro d ⟨q, hq, hw, hmem, hz⟩
      obtain ⟨q', hq', ha'⟩ := hx' d q hq
      exact ⟨q', hq', ha'.status ▸ hw, ha'.asyncParents ▸ hmem, ha'.entries ▸ hz⟩
    · simp [SourceText.waitsFor, ha.status, ha.pendingAsync]
  rested x r' hr' hreleased := by
    obtain ⟨r, hr, ha, -⟩ := hx x r' hr'
    exact ha.pendingAsync.trans (h.rested x r hr hreleased)
  pending x r' hr' hp := by
    obtain ⟨r, hr, ha, -⟩ := hx x r' hr'
    rw [ha.pendingAsync]
    exact h.pending x r hr (ha.asyncState ▸ hp)
  parented x r' hr' hparents hw := by
    obtain ⟨r, hr, ha, -⟩ := hx x r' hr'
    rw [ha.pendingAsync, ha.asyncState]
    exact h.parented x r hr (ha.asyncParents ▸ hparents) (ha.status ▸ hw)

theorem modifySource {s : Store} (h : Backed s.outline F X G H) (m : ModuleId)
    {f : SourceText → SourceText} (hf : ∀ r, Alike r.outline (f r).outline)
    (hroot : ∀ r, s.source? m = some r → r.status.isParked = true →
      (f r).cycleRoot = r.cycleRoot) : Backed (s.modifySource m f).outline F X G H := by
  have heach : s.Each (fun r r' ↦ Alike r.outline r'.outline ∧
      (r.status.isParked = true → r'.cycleRoot = r.cycleRoot)) (s.modifySource m f) :=
    .modifySource (fun r ↦ ⟨.refl _, fun _ ↦ rfl⟩) s m fun r hr ↦ ⟨hf r, hroot r hr⟩
  refine h.of_alike (fun x r' hr' ↦ ?_) fun x r hr ↦ ?_
  · obtain ⟨q', hq', rfl⟩ := Store.source?_of_outline hr'
    obtain ⟨q, hq, ha, hc⟩ := heach.before hq'
    exact ⟨_, Store.outline_eq_some hq, ha, fun hp ↦ hc (by simpa using hp)⟩
  · obtain ⟨q, hq, rfl⟩ := Store.source?_of_outline hr
    obtain ⟨q', hq', ha, -⟩ := heach.after hq
    exact ⟨_, Store.outline_eq_some hq', ha⟩

/-- The same bodies were called. -/
theorem events (h : Backed o F X G H) (hH : ∀ x c, .began x c ∈ H' ↔ .began x c ∈ H) :
    Backed o F X G H' := by
  have hreleased : ∀ x, Released F H' x ↔ Released F H x := fun x ↦
    or_congr Iff.rfl (exists_congr fun c ↦ hH x c)
  refine ⟨h.owed, fun x r hr hx ↦ h.rested x r hr ((hreleased x).1 hx), fun x r hr hp ↦ ?_,
    h.parented⟩
  rw [hreleased]
  exact h.pending x r hr hp

/-- A move that concerns a single module. -/
theorem change (h : Backed o F X G H) (hm : o m = some r) (hm' : o' m = some r')
    (hne : ∀ x, x ≠ m → o' x = o x) (herror : r'.evaluationError = none → r.evaluationError = none)
    (hZ : ∀ x, x ≠ m → x ∈ F' ++ X' → x ∈ F ++ X)
    (hpay : ∀ x, Owes o (F ++ X) m x →
      Owes o' (F' ++ X') m x ∨ G.count x + 1 ≤ G'.count x ∨ x = m)
    (hG : ∀ x, x ≠ m → G.count x ≤ G'.count x)
    (hreleased : ∀ x, x ≠ m → (Released F' H' x ↔ Released F H x))
    (howed : Heeded o' m r' → Owed o' (F' ++ X') G' m r'.waitsFor)
    (hrested : Released F' H' m → r'.pendingAsync = 0)
    (hpending : r'.asyncState = .pending → Released F' H' m ∨ 0 < r'.pendingAsync)
    (hparented : r'.asyncParents ≠ [] → r'.status.isWaiting = true →
      r'.asyncState = .pending ∨ 0 < r'.pendingAsync) : Backed o' F' X' G' H' := by
  have hother : ∀ {x p}, o' x = some p → x ≠ m → o x = some p := fun hp hx ↦ by
    rwa [hne _ hx] at hp
  have hself : ∀ {x p}, o' x = some p → x = m → p = r' := by
    rintro x p hp rfl
    exact Option.some.inj (hp.symm.trans hm')
  refine ⟨fun x p hp hheeded ↦ ?_, fun x p hp hx ↦ ?_, fun x p hp hx ↦ ?_, fun x p hp hx hw ↦ ?_⟩ <;>
    by_cases hxm : x = m
  · obtain rfl := hself hp hxm
    exact hxm ▸ howed (hxm ▸ hheeded)
  · have hbefore := hheeded.before (keepsErrors_of_ne hm hm' hne herror) fun h ↦ ⟨h, rfl⟩
    refine (h.owed x p (hother hp hxm) hbefore).pay hne hZ (fun howes ↦ ?_) (hG x hxm)
    exact (hpay x howes).imp id fun h ↦ h.resolve_right hxm
  · obtain rfl := hself hp hxm
    exact hrested (hxm ▸ hx)
  · exact h.rested x p (hother hp hxm) ((hreleased x hxm).1 hx)
  · obtain rfl := hself hp hxm
    exact hxm ▸ hpending hx
  · rw [hreleased x hxm]
    exact h.pending x p (hother hp hxm) hx
  · obtain rfl := hself hp hxm
    exact hparented hx hw
  · exact h.parented x p (hother hp hxm) hx hw

/-- A change of a single module by which it owes no less and waits for no more. -/
theorem adapt (h : Backed o F X G H) (hm : o m = some r) (hm' : o' m = some r')
    (hne : ∀ x, x ≠ m → o' x = o x) (herror : r'.evaluationError = r.evaluationError)
    (hheeded : Heeded o' m r' → Heeded o m r) (hentries : r'.entries = r.entries)
    (hparents : ∀ x ∈ r.asyncParents, r.status.isWaiting = true →
      r'.status.isWaiting = true ∧ x ∈ r'.asyncParents)
    (hwaits : r'.waitsFor ≤ r.waitsFor)
    (hreleased : ∀ x, x ≠ m → (Released F H' x ↔ Released F H x))
    (hrested : Released F H' m → r'.pendingAsync = 0)
    (hpending : r'.asyncState = .pending → Released F H' m ∨ 0 < r'.pendingAsync)
    (hparented : r'.asyncParents ≠ [] → r'.status.isWaiting = true →
      r'.asyncState = .pending ∨ 0 < r'.pendingAsync) : Backed o' F X G H' := by
  have hpay : ∀ x, Owes o (F ++ X) m x → Owes o' (F ++ X) m x := by
    rintro x ⟨q, hq, hw, hmem, hz⟩
    obtain rfl : r = q := Option.some.inj (hm.symm.trans hq)
    obtain ⟨hw', hmem'⟩ := hparents x hmem hw
    exact ⟨r', hm', hw', hmem', hentries ▸ hz⟩
  refine h.change hm hm' hne (fun he ↦ herror ▸ he) (fun _ _ ↦ id) (fun x ↦ .inl ∘ hpay x)
    (fun _ _ ↦ Nat.le_refl _) hreleased (fun hh ↦ ?_) hrested hpending hparented
  have howed := (h.owed m r hm (hheeded hh)).pay hne (fun _ _ ↦ id) (.inl ∘ hpay m) (Nat.le_refl _)
  exact howed.mono (fun _ ↦ id) (Nat.le_refl _) hwaits

/-- A change of a single module that stays where it is. -/
theorem adjust (h : Backed o F X G H) (hm : o m = some r) (hm' : o' m = some r')
    (hne : ∀ x, x ≠ m → o' x = o x) (hsame : r'.entries = r.entries ∧ r'.status = r.status ∧
      r'.evaluationError = r.evaluationError ∧ r'.cycleRoot = r.cycleRoot ∧
      r'.asyncParents = r.asyncParents ∧ r'.pendingAsync = r.pendingAsync)
    (hreleased : ∀ x, x ≠ m → (Released F H' x ↔ Released F H x))
    (hrested : Released F H' m → r'.pendingAsync = 0)
    (hpending : r'.asyncState = .pending → Released F H' m ∨ 0 < r'.pendingAsync)
    (hparented : r'.asyncParents ≠ [] → r'.status.isWaiting = true →
      r'.asyncState = .pending ∨ 0 < r'.pendingAsync) : Backed o' F X G H' := by
  obtain ⟨h1, h2, h3, h4, h5, h6⟩ := hsame
  refine h.adapt hm hm' hne h3 (fun hh ↦ hh.before (keepsErrors_of_ne hm hm' hne fun he ↦ h3 ▸ he)
    fun hp ↦ ⟨h2 ▸ hp, h4⟩) h1 (fun x hx hw ↦ ⟨h2 ▸ hw, h5 ▸ hx⟩) ?_ hreleased hrested hpending
    hparented
  simp [SourceText.waitsFor, h2, h6]

/-- Nothing was set free or is due, and nothing has been called so far. -/
theorem of_fresh (h : ∀ x r, o x = some r →
      r.asyncState = .none ∧ r.asyncParents = [] ∧ r.pendingAsync = 0) : Backed o [] [] [] [] := by
  refine ⟨fun x r hr _ ↦ ?_, fun x r hr _ ↦ (h x r hr).2.2, fun x r hr hp ↦ ?_,
    fun x r hr hparents ↦ absurd (h x r hr).2.1 hparents⟩
  · rw [SourceText.waitsFor_of_pendingAsync (h x r hr).2.2]
    exact .zero _ _ _ _
  · exact nomatch (h x r hr).1.symm.trans hp

end Backed

/-- The module fails. -/
structure SourceText.Breaks (r r' : SourceText) : Prop where
  status : r'.status = .evaluated
  error : r'.evaluationError.isSome
  asyncState : r'.asyncState ≠ .pending
  pendingAsync : r'.pendingAsync = r.pendingAsync

theorem SourceText.Breaks.fail (r : SourceText) (e : ErrorId) : r.Breaks (r.fail e) := by
  refine ⟨rfl, rfl, ?_, rfl⟩
  change (if r.asyncState = .pending then AsyncState.settled else r.asyncState) ≠ .pending
  split
  · exact nofun
  · assumption

theorem SourceText.Breaks.failed (r : SourceText) (e : ErrorId) : r.Breaks (r.failed e) :=
  ⟨rfl, rfl, nofun, rfl⟩

/-! ## Moves of a walk -/

namespace Backed

variable {s : Store} {F X G : List ModuleId} {H : List Event} {m d : ModuleId} {r : SourceText}
  {goal : EvaluationGoal} {st : Stance} {w : EvaluationWalk} {T : List Tour}

/-- A walk enters a module. -/
theorem enter {t t' : Traversal} (h : Backed s.outline [] [] [] H)
    (hs : Sound s.outline T [] [] [] H) (hd : s.source? d = some r) (ha : r.arrival t = .enter t')
    (hnot : r.status ≠ .asyncSubgraphsSearching) (hheeded : Heeded s.outline d r.outline) :
    Backed (EvaluationWalk.push s w d t').1.outline [] [] [] H := by
  have hdo := Store.outline_eq_some hd
  have L := hs.lawful d _ hdo
  have hreleased : ¬Released [] H d := fun hr ↦
    L.not_begun_of_enter ha (hr.resolve_left List.not_mem_nil)
  -- it waits only if it waits as a result of a search, and then it keeps everything
  have hkept : (r.status.isWaiting = false ∧ r.status ≠ .asyncSubgraphsSearchingAsync) ∨
      r.status = .asyncSubgraphsSearchingAsync := by
    obtain ⟨-, hstatus⟩ := SourceText.arrival_eq_enter ha
    cases hr : r.status <;> simp [hr, Status.outline, Status.isWaiting] at hstatus hnot ⊢
  have hwaiting : ∀ i, (r.entered t' i).outline.status.isWaiting = true := fun i ↦ by
    rw [SourceText.status_outline_entered]
    cases t' <;> rfl
  refine h.adapt hdo (Store.outline_modifySource_self hd _)
    (fun x hx ↦ Store.outline_modifySource_of_ne s hx _) rfl (fun _ ↦ hheeded) rfl
    (fun x hx hw ↦ ⟨hwaiting _, ?_⟩) ?_
    (fun _ _ ↦ Iff.rfl) (fun hr ↦ absurd hr hreleased) (by rintro ⟨⟩) fun hparents _ ↦ .inr ?_
  · rcases hkept with ⟨hw', -⟩ | hr
    · rw [SourceText.outline_status, Status.isWaiting_outline, hw'] at hw
      contradiction
    · simpa [SourceText.entered, hr] using hx
  · rw [SourceText.waitsFor_of_waiting (hwaiting _)]
    rcases hkept with ⟨-, hr⟩ | hr
    · simp [SourceText.entered, hr, hnot]
    · rw [SourceText.waitsFor_of_waiting (by rw [SourceText.outline_status, hr]; rfl)]
      simp [SourceText.entered, hr]
  · rcases hkept with ⟨-, hr⟩ | hr
    · simp [SourceText.entered, hr, hnot] at hparents
    · have hpending : r.asyncState = .pending := L.waiting (.inr (by simp [hr]))
      have hpos := (h.pending d _ hdo hpending).resolve_left hreleased
      simpa [SourceText.entered, hr] using hpos

/-- A module on the path of a walk comes to wait for another one. -/
theorem await (h : Backed s.outline [] [] [] H) (hs : Sound s.outline T [] [] [] H) {τ : Tour}
    (hτ : τ ∈ T) {f : EvaluationFrame} (hf : f ∈ τ.walk.frames) (d : ModuleId) :
    Backed (EvaluationWalk.await s f.module d).outline [] [] [] H := by
  rcases EvaluationWalk.await_cases s f.module d with heq | ⟨r, q, hr, hq, hpending, hnot, heq⟩
  · rwa [heq]
  have hro := Store.outline_eq_some hr
  have hqo := Store.outline_eq_some hq
  obtain ⟨hstatus, hasync, hbegun⟩ := (hs.lawful _ _ hro).framed _ ⟨τ, hτ, f, hf, rfl, rfl⟩
  have hmd : f.module ≠ d := by
    rintro rfl
    obtain rfl : r = q := Option.some.inj (hr.symm.trans hq)
    exact hasync hpending
  have hwaiting : r.status.isWaiting = true := by
    rw [← Status.isWaiting_outline, ← SourceText.outline_status, hstatus]
    cases f.traversal <;> rfl
  rw [heq]
  set s₁ := s.modifySource f.module fun r ↦ { r with pendingAsync := r.pendingAsync + 1 } with hs₁
  have hq₁ : s₁.source? d = some q := by
    rw [hs₁, Store.source?_modifySource, if_neg (Ne.symm hmd), hq]
  have hadded : ∀ x, x ≠ d → (s₁.modifySource d fun q ↦
      { q with asyncParents := q.asyncParents ++ [f.module] }).outline x = s₁.outline x :=
    fun x hx ↦ Store.outline_modifySource_of_ne s₁ hx _
  have hcounted : ∀ x, x ≠ f.module → s₁.outline x = s.outline x := fun x hx ↦
    Store.outline_modifySource_of_ne s hx _
  set s₂ := s₁.modifySource d fun q ↦ { q with asyncParents := q.asyncParents ++ [f.module] } with hs₂
  have hdself : s₂.outline d =
      some ({ q with asyncParents := q.asyncParents ++ [f.module] } : SourceText).outline :=
    Store.outline_modifySource_self hq₁ _
  have hself : s₂.outline f.module =
      some ({ r with pendingAsync := r.pendingAsync + 1 } : SourceText).outline :=
    (hadded _ hmd).trans (Store.outline_modifySource_self hr _)
  -- whoever owed something owes it still
  have howes : ∀ e x, Owes s.outline [] e x → Owes s₂.outline [] e x := by
    rintro e x ⟨p, hp, hw, hmem, hz⟩
    by_cases hed : e = d
    · subst hed
      obtain rfl : q.outline = p := Option.some.inj (hqo.symm.trans hp)
      exact ⟨_, hdself, hw, List.mem_append_left _ hmem, hz⟩
    · by_cases hem : e = f.module
      · subst hem
        obtain rfl : r.outline = p := Option.some.inj (hro.symm.trans hp)
        exact ⟨_, hself, hw, hmem, hz⟩
      · exact ⟨p, ((hadded e hed).trans (hcounted e hem)).trans hp, hw, hmem, hz⟩
  have hothers : ∀ {x p}, s₂.outline x = some p → x ≠ f.module → x ≠ d → s.outline x = some p :=
    fun hp hx hx' ↦ ((hadded _ hx').trans (hcounted _ hx)).symm.trans hp
  have herrors : KeepsErrors s.outline s₂.outline := by
    intro x p hp
    by_cases hxd : x = d
    · subst hxd
      obtain rfl := Option.some.inj (hqo.symm.trans hp)
      exact ⟨_, hdself, id⟩
    · by_cases hxm : x = f.module
      · subst hxm
        obtain rfl := Option.some.inj (hro.symm.trans hp)
        exact ⟨_, hself, id⟩
      · exact ⟨p, ((hadded x hxd).trans (hcounted x hxm)).trans hp, id⟩
  refine ⟨fun x p hp hheeded ↦ ?_, fun x p hp hx ↦ ?_, fun x p hp hx ↦ ?_,
    fun x p hp hx hw ↦ ?_⟩ <;> by_cases hxm : x = f.module
  · subst hxm
    obtain rfl := Option.some.inj (hself.symm.trans hp)
    obtain ⟨l, hnodup, hl, hle⟩ := h.owed _ _ hro (hheeded.before herrors fun h ↦ ⟨h, rfl⟩)
    refine ⟨d :: l, List.nodup_cons.2 ⟨fun hmem ↦ ?_, hnodup⟩, List.forall_mem_cons.2
      ⟨⟨_, hdself, ?_, List.mem_append_right _ (List.mem_singleton.2 rfl), .inr List.not_mem_nil⟩,
        fun e he ↦ howes e _ (hl e he)⟩, ?_⟩
    · obtain ⟨p, hp, -, hmem, -⟩ := hl d hmem
      obtain rfl := Option.some.inj (hqo.symm.trans hp)
      exact hnot hmem
    · exact (hs.lawful d _ hqo).pending hpending
    · rw [SourceText.waitsFor_of_waiting (by simpa using hwaiting)] at hle ⊢
      simp only [List.length_cons, SourceText.outline_pendingAsync] at hle ⊢
      omega
  · by_cases hxd : x = d
    · subst hxd
      obtain rfl := Option.some.inj (hdself.symm.trans hp)
      exact (h.owed x _ hqo (hheeded.before herrors fun h ↦ ⟨h, rfl⟩)).mono (howes · x)
        (Nat.le_refl _) (Nat.le_refl _)
    · exact (h.owed x p (hothers hp hxm hxd) (hheeded.before herrors fun h ↦ ⟨h, rfl⟩)).mono
        (howes · x) (Nat.le_refl _) (Nat.le_refl _)
  · exact absurd ((hxm ▸ hx).resolve_left List.not_mem_nil) hbegun
  · by_cases hxd : x = d
    · subst hxd
      obtain rfl := Option.some.inj (hdself.symm.trans hp)
      exact h.rested x q.outline hqo hx
    · exact h.rested x p (hothers hp hxm hxd) hx
  · subst hxm
    obtain rfl := Option.some.inj (hself.symm.trans hp)
    exact .inr (Nat.succ_pos _)
  · by_cases hxd : x = d
    · subst hxd
      obtain rfl := Option.some.inj (hdself.symm.trans hp)
      exact h.pending x q.outline hqo hx
    · exact h.pending x p (hothers hp hxm hxd) hx
  · subst hxm
    obtain rfl := Option.some.inj (hself.symm.trans hp)
    exact .inr (Nat.succ_pos _)
  · by_cases hxd : x = d
    · subst hxd
      obtain rfl := Option.some.inj (hdself.symm.trans hp)
      exact .inl hpending
    · exact h.parented x p (hothers hp hxm hxd) hx hw

/-- A module leads back to an earlier one. -/
theorem lowerAncestor (h : Backed s.outline F X G H) (m : ModuleId) (i : Nat) :
    Backed (s.lowerAncestor m i).outline F X G H :=
  h.modifySource m (fun r ↦ .lowerAncestor r i) fun _ _ _ ↦ rfl

/-- The walk is through with a module that waits from now on. -/
theorem hold (h : Backed s.outline F X G H) (hm : s.source? m = some r) (hpos : 0 < r.pendingAsync) :
    Backed (s.holdModule m).outline F X G H :=
  h.adjust (Store.outline_eq_some hm) (Store.outline_holdModule hm)
    (fun _ hx ↦ Store.outline_modifySource_of_ne s hx _) ⟨rfl, rfl, rfl, rfl, rfl, rfl⟩
    (fun _ _ ↦ Iff.rfl) (h.rested m r.outline (Store.outline_eq_some hm)) (fun _ ↦ .inr hpos)
    fun _ _ ↦ .inl rfl

/-- The walk is through with a module that it searched. -/
theorem search (h : Backed s.outline F X G H) (hm : s.source? m = some r) :
    Backed (s.holdSearched m).outline F X G H := by
  by_cases h0 : r.pendingAsync = 0
  · have hsame : (s.holdSearched m).outline = s.outline := by
      refine Store.outline_modifySource_of_outline fun q hq ↦ ?_
      obtain rfl : r = q := Option.some.inj (hm.symm.trans hq)
      rw [if_pos h0]
    rwa [hsame]
  · have hself : (s.holdSearched m).outline m =
        some ({ r with asyncState := .pending } : SourceText).outline := by
      rw [Store.holdSearched, Store.outline_modifySource_self hm, if_neg h0]
    exact h.adjust (Store.outline_eq_some hm) hself
      (fun x hx ↦ Store.outline_modifySource_of_ne s hx _) ⟨rfl, rfl, rfl, rfl, rfl, rfl⟩
      (fun _ _ ↦ Iff.rfl) (h.rested m r.outline (Store.outline_eq_some hm))
      (fun _ ↦ .inr (Nat.pos_of_ne_zero h0)) fun _ _ ↦ .inl rfl

theorem released_cons {c : Option PromiseId} {x : ModuleId} (hx : x ≠ m) :
    Released F (.began m c :: H) x ↔ Released F H x := by
  simp [Released, hx]

/-- The body of a module that does not await is called. -/
theorem run (h : Backed s.outline F X G H) (hm : s.source? m = some r) (h0 : r.pendingAsync = 0) :
    Backed s.outline F X G (.began m none :: H) :=
  h.adjust (Store.outline_eq_some hm) (Store.outline_eq_some hm) (fun _ _ ↦ rfl)
    ⟨rfl, rfl, rfl, rfl, rfl, rfl⟩ (fun _ ↦ released_cons) (fun _ ↦ h0)
    (fun _ ↦ .inl (.inr ⟨none, List.mem_cons_self⟩)) (h.parented m _ (Store.outline_eq_some hm))

/-- The body of a module that awaits is called. -/
theorem runAsync (h : Backed s.outline F X G H) (hm : s.source? m = some r)
    (h0 : r.pendingAsync = 0) (p : PromiseId) :
    Backed (s.startAsync m).2.outline F X G (.began m (some p) :: H) := by
  rw [Store.outline_startAsync]
  exact h.adjust (Store.outline_eq_some hm) (Store.outline_holdModule hm)
    (fun x hx ↦ Store.outline_modifySource_of_ne s hx _) ⟨rfl, rfl, rfl, rfl, rfl, rfl⟩
    (fun _ ↦ released_cons) (fun _ ↦ h0)
    (fun _ ↦ .inl (.inr ⟨some p, List.mem_cons_self⟩)) fun _ _ ↦ .inl rfl

/-- The modules of a component are complete, and nobody waits for one of them that does not wait
itself. -/
theorem pop {ms : List ModuleId} (h : Backed s.outline F X G H) (hnodup : ms.Nodup)
    (hms : ∀ x ∈ ms, ∀ r, s.source? x = some r →
      r.status.isWalked = true ∧ (r.asyncState ≠ .pending → r.pendingAsync = 0)) (root : ModuleId) :
    Backed (s.completeMembers root ms).outline F X G H := by
  have hsource := s.source?_completeMembers hnodup root
  -- a module that is complete, or any other
  have hcases : ∀ {x p'}, (s.completeMembers root ms).outline x = some p' → ∃ p,
      s.source? x = some p ∧ ((x ∈ ms ∧ p' = (p.complete root).outline) ∨ p' = p.outline) := by
    intro x p' hp'
    obtain ⟨q', hq', rfl⟩ := Store.source?_of_outline hp'
    rw [hsource] at hq'
    split at hq'
    · next hx =>
      obtain ⟨p, hp, rfl⟩ := Option.map_eq_some_iff.1 hq'
      exact ⟨p, hp, .inl ⟨hx, rfl⟩⟩
    · exact ⟨q', hq', .inr rfl⟩
  have hwaiting : ∀ {x p}, x ∈ ms → s.source? x = some p →
      p.outline.status.isWaiting = true := fun hx hp ↦ by
    rw [SourceText.outline_status, Status.isWaiting_outline]
    exact Status.isWaiting_of_isWalked (hms _ hx _ hp).1
  have hpending : ∀ {x p}, x ∈ ms → s.source? x = some p → p.asyncParents ≠ [] →
      p.asyncState = .pending := fun {x p} hx hp hparents ↦ by
    by_contra hnot
    rcases h.parented x p.outline (Store.outline_eq_some hp) hparents (hwaiting hx hp) with hp' | hpos
    · exact hnot hp'
    · exact absurd ((hms x hx p hp).2 hnot) (Nat.pos_iff_ne_zero.1 hpos)
  have howes : ∀ d x, Owes s.outline (F ++ X) d x →
      Owes (s.completeMembers root ms).outline (F ++ X) d x := by
    rintro d x ⟨q, hq, hw, hmem, hz⟩
    obtain ⟨p, hp, rfl⟩ := Store.source?_of_outline hq
    by_cases hd : d ∈ ms
    · have hself : (s.completeMembers root ms).source? d = some (p.complete root) := by
        rw [hsource, if_pos hd, hp, Option.map_some]
      refine ⟨_, Store.outline_eq_some hself, ?_, hmem, hz⟩
      change (EvaluationWalk.completeStatus p).outline.isWaiting = true
      have hp' := hpending hd hp (List.ne_nil_of_mem hmem)
      rcases EvaluationWalk.completeStatus_cases (hms d hd p hp).1 with ⟨-, -, hc⟩ | ⟨-, hno, -⟩ |
        ⟨-, -, hc⟩ | ⟨-, hno, -⟩
      · rw [hc]
        rfl
      · exact absurd hp' hno
      · rw [hc]
        rfl
      · exact absurd hp' hno
    · refine ⟨p.outline, Store.outline_eq_some ?_, hw, hmem, hz⟩
      rw [hsource, if_neg hd, hp]
  have herrors : KeepsErrors s.outline (s.completeMembers root ms).outline := by
    intro y q hq
    obtain ⟨p, hp, rfl⟩ := Store.source?_of_outline hq
    by_cases hy : y ∈ ms
    · refine ⟨(p.complete root).outline, Store.outline_eq_some ?_, id⟩
      rw [hsource, if_pos hy, hp, Option.map_some]
    · refine ⟨p.outline, Store.outline_eq_some ?_, id⟩
      rw [hsource, if_neg hy, hp]
  refine ⟨fun x p' hp' hheeded ↦ ?_, fun x p' hp' hx ↦ ?_, fun x p' hp' hx ↦ ?_,
    fun x p' hp' hx hw ↦ ?_⟩ <;> obtain ⟨p, hp, ⟨hmem, rfl⟩ | rfl⟩ := hcases hp'
  · -- a walk was at it
    have hbefore : Heeded s.outline x p.outline := fun hparked ↦ by
      have hwalked := (hms x hmem p hp).1
      rw [SourceText.outline_status, Status.isParked_outline] at hparked
      cases hs : p.status <;> simp [hs, Status.isWalked, Status.isParked] at hwalked hparked
    refine (h.owed x _ (Store.outline_eq_some hp) hbefore).mono (howes · x) (Nat.le_refl _) ?_
    rw [SourceText.waitsFor_of_waiting (hwaiting hmem hp)]
    unfold SourceText.waitsFor
    split
    · exact Nat.le_refl _
    · exact Nat.zero_le _
  · exact (h.owed x _ (Store.outline_eq_some hp) (hheeded.before herrors fun h ↦ ⟨h, rfl⟩)).mono
      (howes · x) (Nat.le_refl _) (Nat.le_refl _)
  · exact h.rested x p.outline (Store.outline_eq_some hp) hx
  · exact h.rested x p.outline (Store.outline_eq_some hp) hx
  · exact h.pending x p.outline (Store.outline_eq_some hp) hx
  · exact h.pending x p.outline (Store.outline_eq_some hp) hx
  · exact h.parented x p.outline (Store.outline_eq_some hp) hx (hwaiting hmem hp)
  · exact h.parented x p.outline (Store.outline_eq_some hp) hx hw

/-! ## Failing -/

/-- Modules fail, and all those that wait for them. -/
theorem spread {s' : Store} (h : Backed s.outline F X [] H) (hX : X' ⊆ X)
    (hs : s.Each (fun r r' ↦ r' = r ∨ r.Breaks r') s')
    (hparents : ∀ d r, s.source? d = some r → s'.source? d = some r ∨
      ∀ x ∈ r.asyncParents, ∀ p, s'.source? x = some p → p.status = .evaluated) :
    Backed s'.outline F X' [] H := by
  have hZ : F ++ X' ⊆ F ++ X := List.append_subset.2
    ⟨List.subset_append_left F X, List.Subset.trans hX (List.subset_append_right F X)⟩
  have herrors : KeepsErrors s.outline s'.outline := by
    intro y q hq
    obtain ⟨p, hp, rfl⟩ := Store.source?_of_outline hq
    obtain ⟨p', hp', rfl | hbreaks⟩ := hs.after hp
    · exact ⟨_, Store.outline_eq_some hp', id⟩
    · refine ⟨_, Store.outline_eq_some hp', fun he ↦ ?_⟩
      have := hbreaks.error
      rw [show p'.evaluationError = none from he] at this
      contradiction
  refine ⟨fun x p' hp' hheeded ↦ ?_, fun x p' hp' hx ↦ ?_, fun x p' hp' hx ↦ ?_,
    fun x p' hp' hx hw ↦ ?_⟩ <;> obtain ⟨q', hq', rfl⟩ := Store.source?_of_outline hp' <;>
    obtain ⟨p, hp, rfl | hbreaks⟩ := hs.before hq'
  · by_cases hover : q'.status = .evaluated
    · rw [SourceText.waitsFor_of_not_waiting (by simp [hover, Status.isWaiting])]
      exact .zero _ _ _ _
    refine (h.owed x _ (Store.outline_eq_some hp) (hheeded.before herrors fun h ↦ ⟨h, rfl⟩)).mono
      ?_ (Nat.le_refl _) (Nat.le_refl _)
    -- whoever has failed owes nothing to a module that is not over
    rintro d ⟨q, hq, hw, hmem, hz⟩
    obtain ⟨r, hr, rfl⟩ := Store.source?_of_outline hq
    rcases hparents d r hr with hr' | hfailed
    · exact ⟨_, Store.outline_eq_some hr', hw, hmem, hz.imp id fun hz hd ↦ hz (hZ hd)⟩
    · exact absurd (hfailed x hmem q' hq') hover
  · rw [SourceText.waitsFor_of_not_waiting (by simp [hbreaks.status, Status.isWaiting])]
    exact .zero _ _ _ _
  · exact h.rested x _ (Store.outline_eq_some hp) hx
  · exact hbreaks.pendingAsync.trans (h.rested x p.outline (Store.outline_eq_some hp) hx)
  · exact h.pending x _ (Store.outline_eq_some hp) hx
  · exact absurd hx hbreaks.asyncState
  · exact h.parented x _ (Store.outline_eq_some hp) hx hw
  · rw [SourceText.outline_status, hbreaks.status] at hw
    contradiction

/-- A walk fails that leaves nobody behind. -/
theorem fail {stack : List ModuleId} (h : Backed s.outline F X [] H) (hnodup : stack.Nodup)
    (hclosed : s.Closed stack) (e : ErrorId) (goal : EvaluationGoal) :
    Backed (goal.fail s stack e).1.outline F X [] H := by
  have hsource := goal.source?_fail s hnodup e
  refine h.spread (List.Subset.refl X) (fun x ↦ ?_) fun d r hd ↦ ?_
  · rw [hsource]
    split
    · rcases s.source? x with _ | r
      · exact .none
      · exact .some (.inr (.fail r e))
    · exact Store.Each.refl (fun _ ↦ .inl rfl) s x
  · rw [hsource]
    split
    · next hmem =>
      refine .inr fun x hx p hp ↦ ?_
      rw [hsource] at hp
      split at hp
      · obtain ⟨q, -, rfl⟩ := Option.map_eq_some_iff.1 hp
        rfl
      · next hx' =>
        have hover := (hclosed d hmem x (by simpa [Store.parents, hd] using hx)).resolve_left hx'
        simpa [Store.status?, hp] using hover
    · exact .inl hd

/-- A module that is not over fails, and all that wait for it. -/
theorem reject (h : Backed s.outline F X [] H) (hX : X' ⊆ X) (m : ModuleId) (e : ErrorId) :
    Backed (s.rejectModule m e).outline F X' [] H := by
  have hspreads := spreads_rejectModule s m e
  refine h.spread hX (fun x ↦ ?_) fun d r hd ↦ ?_
  · rcases hspreads.fails x with hx | ⟨r, hr, -, hx⟩
    · rw [hx]
      exact Store.Each.refl (fun _ ↦ .inl rfl) s x
    · rw [hr, hx]
      exact .some (.inr (.failed r e))
  · rcases hspreads.fails d with hd' | ⟨r', hr', hst, hd'⟩
    · exact .inl (hd'.trans hd)
    · obtain rfl := Option.some.inj (hd.symm.trans hr')
      have hnew : NewlyOver s (s.rejectModule m e) d :=
        ⟨by simpa [Store.status?, hd] using hst, by simp [Store.status?, hd', SourceText.failed]⟩
      refine .inr fun x hx p hp ↦ ?_
      have hsome : (s.source? x).isSome := by
        rw [← hspreads.fails.isSome, hp]
        rfl
      have hover := hspreads.parents d hnew x (by simpa [Store.parents, hd] using hx) hsome
      simpa [Store.status?, hp] using hover

/-! ## Moves without a walk -/

theorem waitsFor_finished (r : SourceText) :
    ({ r with asyncState := .settled, status := .evaluated } : SourceText).outline.waitsFor = 0 :=
  rfl

/-- A module that awaits has finished, and those that wait for it are due. -/
theorem fulfill (h : Backed s.outline [] [] [] H) (hm : s.source? m = some r) :
    Backed (s.finishModule m).outline [] [] r.asyncParents H := by
  refine h.change (Store.outline_eq_some hm) (Store.outline_finishModule_self hm)
    (fun x hx ↦ Store.outline_finishModule_of_ne s hx) id (fun _ _ ↦ id)
    (fun x hx ↦ .inr (.inl ?_)) (fun _ _ ↦ Nat.zero_le _) (fun _ _ ↦ Iff.rfl)
    (fun _ ↦ .zero _ _ _ _)
    (h.rested m r.outline (Store.outline_eq_some hm)) nofun fun _ hw ↦ nomatch hw
  obtain ⟨q, hq, -, hmem, -⟩ := hx
  obtain rfl := Option.some.inj ((Store.outline_eq_some hm).symm.trans hq)
  exact List.count_pos_iff.2 hmem

/-- A module that is due and need not be told waits for nothing, or is not told any more. -/
theorem skip (h : Backed s.outline F [] (m :: G) H) (hm : ∀ r, s.source? m = some r →
      Heeded s.outline m r.outline → m ∈ F ∨ r.status.isWaiting = false) :
    Backed s.outline F [] G H := by
  refine ⟨fun x r hr hheeded ↦ ?_, h.rested, h.pending, h.parented⟩
  by_cases hx : x = m
  · subst hx
    obtain ⟨q, hq, rfl⟩ := Store.source?_of_outline hr
    have h0 : q.outline.waitsFor = 0 := by
      rcases hm q hq hheeded with hF | hs
      · exact SourceText.waitsFor_of_pendingAsync (h.rested x _ hr (.inl hF))
      · exact SourceText.waitsFor_of_not_waiting (by simpa using hs)
    rw [h0]
    exact .zero _ _ _ _
  · refine (h.owed x r hr hheeded).mono (fun _ ↦ id) ?_ (Nat.le_refl _)
    rw [List.count_cons_of_ne (Ne.symm hx)]

/-- A module that is due waits for one module less. -/
theorem lessen (h : Backed s.outline F [] (m :: G) H) (hm : s.source? m = some r)
    (h0 : r.pendingAsync - 1 ≠ 0) : Backed (s.lessen m).outline F [] G H := by
  have hmo := Store.outline_eq_some hm
  have hself := Store.outline_modifySource_self hm
    fun r ↦ { r with pendingAsync := r.pendingAsync - 1 }
  have hne := fun x (hx : x ≠ m) ↦ Store.outline_modifySource_of_ne s hx
    fun r ↦ { r with pendingAsync := r.pendingAsync - 1 }
  have hpay : ∀ x, Owes s.outline (F ++ []) m x → Owes (s.lessen m).outline (F ++ []) m x := by
    rintro x ⟨q, hq, hw, hmem, hz⟩
    obtain rfl := Option.some.inj (hmo.symm.trans hq)
    exact ⟨_, hself, hw, hmem, hz⟩
  refine h.change hmo hself hne id (fun _ _ ↦ id) (fun x ↦ .inl ∘ hpay x) (fun x hx ↦ ?_)
    (fun _ _ ↦ Iff.rfl) (fun hheeded ↦ ?_) (fun hreleased ↦ ?_)
    (fun _ ↦ .inr (Nat.pos_of_ne_zero h0)) fun _ _ ↦ .inr (Nat.pos_of_ne_zero h0)
  · rw [List.count_cons_of_ne (Ne.symm hx)]
  · -- one less is due, and the module waits for one less
    have hbefore : Heeded s.outline m r.outline :=
      hheeded.before (keepsErrors_of_ne hmo hself hne id) fun h ↦ ⟨h, rfl⟩
    have howed : Owed (s.lessen m).outline (F ++ []) (m :: G) m _ :=
      (h.owed m _ hmo hbefore).pay hne (fun _ _ ↦ id) (.inl ∘ hpay m) (Nat.le_refl _)
    obtain ⟨l, hnodup, hl, hle⟩ := howed
    refine ⟨l, hnodup, hl, ?_⟩
    rw [List.count_cons_self] at hle
    rw [SourceText.waitsFor_lessened]
    exact Nat.sub_le_of_le_add hle
  · have hzero : r.pendingAsync = 0 := h.rested m r.outline hmo hreleased
    simp [hzero]

/-- A module that is due waits for nothing any more. -/
theorem release (h : Backed s.outline F [] (m :: G) H) (hs : Sound s.outline [] F [] (m :: G) H)
    (hm : s.source? m = some r) (h0 : r.pendingAsync - 1 = 0) :
    Backed (s.lessen m).outline (F ++ [m]) []
      ((if r.entries.awaits then [] else r.asyncParents) ++ G) H := by
  have hmo := Store.outline_eq_some hm
  have hself := Store.outline_modifySource_self hm
    fun r ↦ { r with pendingAsync := r.pendingAsync - 1 }
  obtain ⟨hwalked, U⟩ := hs.unwalked hmo
  have hfree : m ∈ F ++ [m] := List.mem_append_right _ (List.mem_singleton.2 rfl)
  have hcount : ∀ x, x ≠ m → (m :: G).count x ≤
      ((if r.entries.awaits then [] else r.asyncParents) ++ G).count x := fun x hx ↦ by
    rw [List.count_cons_of_ne (Ne.symm hx), List.count_append]
    exact Nat.le_add_left _ _
  refine h.change hmo hself (fun x hx ↦ Store.outline_modifySource_of_ne s hx _) id
    (fun x hx hmem ↦ by simpa [hx] using hmem) (fun x hx ↦ ?_) hcount
    (fun x hx ↦ by simp [Released, hx]) (fun _ ↦ ?_) (fun _ ↦ h0) (fun _ ↦ .inl (.inl hfree))
    fun _ hw ↦ .inl ?_
  · obtain ⟨q, hq, hw, hmem, -⟩ := hx
    obtain rfl := Option.some.inj (hmo.symm.trans hq)
    by_cases hxm : x = m
    · exact .inr (.inr hxm)
    cases hawait : r.entries.awaits with
    | true => exact .inl ⟨_, hself, hw, hmem, .inl hawait⟩
    | false =>
      refine .inr (.inl ?_)
      rw [List.count_cons_of_ne (Ne.symm hxm), if_neg nofun, List.count_append]
      have hpos : 0 < r.asyncParents.count x := List.count_pos_iff.2 hmem
      omega
  · have hnone := SourceText.waitsFor_of_pendingAsync
      (r := ({ r with pendingAsync := r.pendingAsync - 1 } : SourceText).outline) h0
    rw [hnone]
    exact .zero _ _ _ _
  · refine U.waiting ?_
    simp only [SourceText.outline_status, Status.isWaiting_outline, Status.isWalked_outline,
      Status.outline_eq_evaluatingAsync, Status.outline_eq_searchingAsync] at hw hwalked ⊢
    cases hr : r.status <;> simp [hr, Status.isWaiting, Status.isWalked] at hw hwalked ⊢

/-- Fewer modules that were set free. -/
theorem past (h : Backed s.outline (m :: F) [] [] H)
    (hm : ∀ r, s.source? m = some r → r.asyncState ≠ .pending) :
    Backed s.outline F [] [] H := by
  refine ⟨fun x r hr hheeded ↦ ?_, fun x r hr hx ↦ ?_, fun x r hr hp ↦ ?_, h.parented⟩
  · refine (h.owed x r hr hheeded).mono (fun d ↦ ?_) (Nat.le_refl _) (Nat.le_refl _)
    rintro ⟨q, hq, hw, hmem, hz⟩
    refine ⟨q, hq, hw, hmem, hz.imp id fun hz hd ↦ hz ?_⟩
    exact List.mem_cons_of_mem _ hd
  · exact h.rested x r hr (hx.imp (List.mem_cons_of_mem _) id)
  · obtain ⟨q, hq, rfl⟩ := Store.source?_of_outline hr
    refine (h.pending x _ hr hp).imp (Or.imp (fun hx ↦ ?_) id) id
    refine (List.mem_cons.1 hx).resolve_left ?_
    rintro rfl
    exact hm q hq hp

theorem released_tail {x : ModuleId} (hx : x ≠ m) : Released F H x ↔ Released (m :: F) H x := by
  simp [Released, hx]

/-- A module that was set free and does not await owes nothing. -/
theorem not_owes_free {o : Outline} {Z : List ModuleId} (hm : o m = some r)
    (hw : r.entries.awaits = false) (hZ : m ∈ Z) (x : ModuleId) : ¬Owes o Z m x := by
  rintro ⟨q, hq, -, -, hz⟩
  obtain rfl := Option.some.inj (hm.symm.trans hq)
  rcases hz with hz | hz
  · exact nomatch hw.symm.trans hz
  · exact hz hZ

/-- A module that was set free was only searched. -/
theorem pastSearched (h : Backed s.outline (m :: F) [] [] H) (hm : s.source? m = some r)
    (hw : r.entries.awaits = false) : Backed (s.finishSearched m).outline F [] [] H := by
  have hmo := Store.outline_eq_some hm
  have howes := not_owes_free (Z := m :: F ++ []) hmo hw List.mem_cons_self
  refine h.change hmo (Store.outline_finishSearched_self hm)
    (fun x hx ↦ Store.outline_finishSearched_of_ne s hx) id (fun x hx hmem ↦ ?_)
    (fun x hx ↦ absurd hx (howes x)) (fun _ _ ↦ Nat.le_refl _) (fun x ↦ released_tail)
    (fun _ ↦ .zero _ _ _ _) (fun hx ↦ h.rested m r.outline hmo (hx.imp (List.mem_cons_of_mem _) id)) nofun
    fun _ hw ↦ nomatch hw
  exact List.mem_cons_of_mem _ hmem

/-- A module that was set free and does not await is executed. -/
theorem free (h : Backed s.outline (m :: F) [] [] H) (hm : s.source? m = some r)
    (hw : r.entries.awaits = false) : Backed s.outline F [m] [] (.began m none :: H) := by
  have hmo := Store.outline_eq_some hm
  have hrested : r.outline.pendingAsync = 0 := h.rested m r.outline hmo (.inl List.mem_cons_self)
  have howes := not_owes_free (Z := m :: F ++ []) hmo hw List.mem_cons_self
  refine h.change hmo hmo (fun _ _ ↦ rfl) id (fun x hx hmem ↦ ?_) (fun x hx ↦ absurd hx (howes x))
    (fun _ _ ↦ Nat.le_refl _) (fun x hx ↦ (released_cons hx).trans (released_tail hx)) (fun _ ↦ ?_)
    (fun _ ↦ hrested) (fun _ ↦ .inl (.inr ⟨none, List.mem_cons_self⟩)) (h.parented m r.outline hmo)
  · have hF : x ∈ F := by simpa [hx] using hmem
    exact List.mem_append_left _ (List.mem_cons_of_mem _ hF)
  · rw [SourceText.waitsFor_of_pendingAsync hrested]
    exact .zero _ _ _ _

/-- A module that was set free and awaits is executed. -/
theorem freeAsync (h : Backed s.outline (m :: F) [] [] H) (hm : s.source? m = some r)
    (hw : r.entries.awaits = true) (p : PromiseId) :
    Backed (s.startAsync m).2.outline F [] [] (.began m (some p) :: H) := by
  have hmo := Store.outline_eq_some hm
  have hself := Store.outline_holdModule hm
  have hrested : r.pendingAsync = 0 := h.rested m r.outline hmo (.inl List.mem_cons_self)
  rw [Store.outline_startAsync]
  refine h.change hmo hself (fun x hx ↦ Store.outline_modifySource_of_ne s hx _) id
    (fun x hx hmem ↦ List.mem_cons_of_mem _ hmem) (fun x hx ↦ .inl ?_) (fun _ _ ↦ Nat.le_refl _)
    (fun x hx ↦ (released_cons hx).trans (released_tail hx)) (fun _ ↦ ?_) (fun _ ↦ hrested)
    (fun _ ↦ .inl (.inr ⟨some p, List.mem_cons_self⟩)) fun _ _ ↦ .inl rfl
  · obtain ⟨q, hq, hw', hmem, -⟩ := hx
    obtain rfl := Option.some.inj (hmo.symm.trans hq)
    exact ⟨_, hself, hw', hmem, .inl hw⟩
  · have h0 := SourceText.waitsFor_of_pendingAsync
      (r := ({ r with asyncState := .pending } : SourceText).outline) hrested
    rw [h0]
    exact .zero _ _ _ _

/-- A module that was set free and does not await has been executed. -/
theorem freed (h : Backed s.outline F [m] [] H) (hm : s.source? m = some r)
    (hw : r.entries.awaits = false) : Backed (s.finishModule m).outline F [] [] H := by
  have hmo := Store.outline_eq_some hm
  have howes := not_owes_free (Z := F ++ [m]) hmo hw
    (List.mem_append_right _ (List.mem_singleton.2 rfl))
  refine h.change hmo (Store.outline_finishModule_self hm)
    (fun x hx ↦ Store.outline_finishModule_of_ne s hx) id (fun x hx hmem ↦ ?_)
    (fun x hx ↦ absurd hx (howes x)) (fun _ _ ↦ Nat.le_refl _) (fun _ _ ↦ Iff.rfl)
    (fun _ ↦ .zero _ _ _ _) (h.rested m r.outline hmo) nofun fun _ hw ↦ nomatch hw
  rw [List.append_nil] at hmem
  exact List.mem_append_left _ hmem

end Backed

/-! ## All moves -/

/-- Whatever a module of the scene waits for will come. -/
abbrev Scene.Backed (S : Scene) : Prop :=
  EcmaModules.Backed S.store.outline S.queue S.lone S.due S.events

/-- A module of a component that a walk is through with has nothing left to wait for, if it does not
wait. -/
theorem Valid.pendingAsync_of_through {s : Store} {goal : EvaluationGoal} {w : EvaluationWalk}
    {T : List Tour} {F X G : List ModuleId} {J : List Job} {H : List Event} {m x : ModuleId}
    {above below : List ModuleId} {r : SourceText}
    (hv : Valid ⟨s, ⟨goal, .through m, w⟩ :: T, F, X, G, J, H⟩)
    (hb : EcmaModules.Backed s.outline F X G H) (hstack : w.stack = above ++ m :: below)
    (hnot : m ∉ above) (hx : x ∈ above ++ [m]) (hr : s.source? x = some r) :
    r.status.isWalked = true ∧ (r.asyncState ≠ .pending → r.pendingAsync = 0) := by
  have L := hv.sound.lawful x _ (Store.outline_eq_some hr)
  have hmem : x ∈ w.stack := by
    rw [hstack]
    simp only [List.mem_append, List.mem_cons, List.not_mem_nil, or_false] at hx ⊢
    exact hx.imp id .inl
  have hwalked : r.status.isWalked = true := by
    simpa using L.stacked.1 ⟨_, List.mem_cons_self, hmem⟩
  refine ⟨hwalked, fun hp ↦ ?_⟩
  have hahead := (hv.sound.not_ahead_of_popped hstack hnot hx).1
  rcases EvaluationWalk.completeStatus_cases hwalked with ⟨-, hp', -⟩ | ⟨hs, -, -⟩ | ⟨-, hp', -⟩ |
    ⟨hs, -, -⟩
  · exact absurd hp' hp
  · obtain ⟨-, c, hended⟩ := (L.passed hahead (by simp [hs])).resolve_left hp
    exact hb.rested x r.outline (Store.outline_eq_some hr) (.inr ⟨c, hv.called x c _ hended⟩)
  · exact absurd hp' hp
  · exact (L.searched hahead (by simp [hs])).resolve_left hp

/-- A module is told what it waits for as long as the module that stands for it has not failed. -/
theorem Store.heeded_of_root {s : Store} {x : ModuleId} {r : SourceText} (hr : s.source? x = some r)
    (h : s.evaluationError? (s.cycleRoot x) = none) : Heeded s.outline x r.outline := by
  intro _ q hq
  obtain ⟨p, hp, rfl⟩ := Store.source?_of_outline hq
  have hroot : s.cycleRoot x = r.cycleRoot.getD x := by simp [cycleRoot, hr]
  simpa [evaluationError?, hroot, show s.source? (r.cycleRoot.getD x) = some p from hp] using h

/-- Every move keeps it, if walks do not meet, none of them leaves anybody behind, and what was only
searched is not entered in vain. -/
theorem Move.backed {mode : Mode} {S S' : Scene} (hmove : Move mode S S') (hmode : ¬mode.forces)
    (hv : Valid S) (halone : S.Alone)
    (hclosed : ¬mode.fails ∨ ∀ τ ∈ S.tours, S.store.Closed τ.walk.stack)
    (hsearched : ∀ x r, S.store.source? x = some r → r.status = .asyncSubgraphsSearchingAsync →
      S.store.evaluationError? (S.store.cycleRoot x) = none)
    (hb : S.Backed) : S'.Backed := by
  have hs := hv.sound
  cases hmove with
  | @aside s s' T F X G J H ha _ =>
    change EcmaModules.Backed s'.outline F X G H
    rw [ha.outline]
    exact hb
  | note a r => exact hb.events fun _ _ ↦ by simp
  | @evaluate s m root H _ _ _ _ =>
    have ho : s.newPromise.2.outline = s.outline := Store.outline_congr rfl
    exact (ho ▸ hb : EcmaModules.Backed s.newPromise.2.outline _ _ _ _).modifySource root
      (fun r ↦ ⟨rfl, rfl, rfl, rfl, rfl, rfl, fun h h' ↦ ⟨h, h'⟩⟩) fun _ _ _ ↦ rfl
  | force _ _ _ _ _ hforces => exact absurd hforces.1 hmode
  | request _ _ => exact hb
  | unloaded _ _ _ => exact hb
  | synthetic _ => exact hb
  | @pass s goal w t T F X G J H d r hd ha _ =>
    change EcmaModules.Backed (Store.outline (if _ then _ else _)) F X G H
    split
    · unfold EvaluationWalk.detach
      split
      · next hover =>
        refine Backed.modifySource hb d
          (fun r ↦ ⟨rfl, rfl, rfl, rfl, rfl, rfl, fun h h' ↦ ⟨h, h'⟩⟩) fun q hq hp ↦ ?_
        have hover : s.status? d = some .evaluated := (by simpa using hover : _ ∧ _).1
        rw [Store.status?, hq] at hover
        rw [show q.status = .evaluated from Option.some.inj hover] at hp
        contradiction
      · exact hb
    · exact hb
  | @enter s goal w t t' T F X G J H d r hd ha hnot _ =>
    obtain ⟨rfl, rfl, rfl⟩ := halone.alone (List.cons_ne_nil _ _)
    refine hb.enter hs hd ha hnot fun hp ↦ ?_
    refine Store.heeded_of_root hd (hsearched d r hd ?_) hp
    obtain ⟨-, hstatus⟩ := SourceText.arrival_eq_enter ha
    cases hr : r.status <;> simp [hr, Status.outline, Status.isParked] at hstatus hp ⊢
  | leaveLast _ => exact hb
  | @leaveBack s goal st w f rest T F X G J H d r q hst hf hr hq hlead =>
    obtain ⟨rfl, rfl, rfl⟩ := halone.alone (List.cons_ne_nil _ _)
    refine Backed.await ?_ (hs.lowerAncestor f.module q.dfsAncestorIndex) List.mem_cons_self
      (hf ▸ List.mem_cons_self) d
    exact Backed.lowerAncestor hb f.module q.dfsAncestorIndex
  | leaveSearched hst hf hr hq hlead hqs =>
    obtain ⟨rfl, rfl, rfl⟩ := halone.alone (List.cons_ne_nil _ _)
    exact hb.await hs List.mem_cons_self (hf ▸ List.mem_cons_self) _
  | leaveOff hf hr hq hlead hqs he =>
    obtain ⟨rfl, rfl, rfl⟩ := halone.alone (List.cons_ne_nil _ _)
    exact hb.await hs List.mem_cons_self (hf ▸ List.mem_cons_self) _
  | hold hf hr hpos => exact hb.hold hr hpos
  | run hf hr h0 hw => exact hb.run hr h0
  | runAsync hf hr h0 hw => exact hb.runAsync hr h0 _
  | search hf =>
    obtain ⟨r, hr, -⟩ := hs.lawful_top hf
    exact hb.search hr
  | ended _ _ => exact hb.events fun _ _ ↦ by simp
  | @pop s goal w m above below T F X G J H hstack hnot hroot =>
    refine hb.pop (List.Sublist.nodup ?_ (hstack ▸ (List.nodup_append.1 hs.stacked).1 :
      (above ++ m :: below).Nodup)) (fun x hx r hr ↦ ?_) m
    · exact (List.append_sublist_append_left above).2 (List.singleton_sublist.2 List.mem_cons_self)
    · exact hv.pendingAsync_of_through hb hstack hnot hx hr
  | @done s goal w T F X G J H _ =>
    change EcmaModules.Backed (goal.finish s).1.outline F X G H
    rw [outline_finish]
    exact hb
  | @fail s goal st w T F X G J H e _ _ hfails =>
    obtain ⟨rfl, rfl, rfl⟩ := halone.alone (List.cons_ne_nil _ _)
    exact Backed.fail hb (List.nodup_append.1 hs.stacked).1
      (hclosed.resolve_left (not_not_intro hfails) _ List.mem_cons_self) e goal
  | failed e _ _ => exact hb.events fun _ _ ↦ by simp
  | take _ => exact hb
  | drop _ => exact hb
  | late _ => exact hb
  | fulfill hm _ => exact hb.fulfill hm
  | reject _ => exact hb.reject (List.Subset.refl _) _ _
  | @skip s m F G H hm =>
    refine hb.skip fun r hr hheeded ↦ ?_
    rcases hm with hm | hm | hm
    · exact .inl hm
    · refine .inr ?_
      rw [← Bool.not_eq_true]
      intro hw
      have hparked : r.status.isParked = true := by
        obtain ⟨hwalked, -⟩ := hs.unwalked (Store.outline_eq_some hr)
        rw [SourceText.outline_status, Status.isWalked_outline] at hwalked
        cases hst : r.status <;>
          simp [hst, Status.isWaiting, Status.isWalked, Status.isParked] at hw hwalked ⊢
      have hroot : s.cycleRoot m = r.cycleRoot.getD m := by simp [Store.cycleRoot, hr]
      simp only [Store.isBeyondWaiting, Store.status?, hr, hroot, Bool.or_eq_true] at hm
      rcases hm with herror | hover
      · rcases hq : s.source? (r.cycleRoot.getD m) with _ | q
        · simp [Store.evaluationError?, hq] at herror
        · have hnone := hheeded (by simpa using hparked) q.outline (Store.outline_eq_some hq)
          simp [Store.evaluationError?, hq, show q.evaluationError = none from hnone] at herror
      · have hst : r.status = .evaluated := by simpa using hover
        rw [hst] at hw
        contradiction
    · exact absurd (hm.symm.trans hr) (by simp)
  | lessen _ _ hm h0 => exact hb.lessen hm h0
  | release _ _ hm h0 => exact hb.release hs hm h0
  | @past s m F H hm =>
    refine hb.past fun r hr hp ↦ ?_
    rcases hm with hm | hm
    · exact absurd (hm.symm.trans hr) (by simp)
    · have hstatus : r.status = .evaluated := by simpa [Store.status?, hr] using hm
      have hwaiting := (hs.lawful m _ (Store.outline_eq_some hr)).pending hp
      simp [hstatus, Status.outline, Status.isWaiting] at hwaiting
  | pastSearched hm hw _ => exact hb.pastSearched hm hw
  | free hm _ hw _ => exact hb.free hm hw
  | freeAsync hm _ hw => exact hb.freeAsync hm hw _
  | @freed s m F H =>
    obtain ⟨q, hq, hw, -⟩ := hs.lone m (List.mem_singleton.2 rfl)
    obtain ⟨r, hr, rfl⟩ := Store.source?_of_outline hq
    exact (hb.freed hr hw).events fun _ _ ↦ by simp
  | freedError _ => exact (hb.reject (List.nil_subset _) _ _).events fun _ _ ↦ by simp
  | freedAsync _ => exact hb.events fun _ _ ↦ by simp

end EcmaModules
