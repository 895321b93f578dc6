import EcmaModules.Proofs.Sound4

namespace EcmaModules

/-! ## Completing a component -/

/-- A module that the walk takes off its stack with its component. -/
def SourceText.complete (root : ModuleId) (r : SourceText) : SourceText :=
  { r with status := EvaluationWalk.completeStatus r, cycleRoot := some root }

/-- A module that a failed walk leaves on its stack. -/
def SourceText.fail (e : ErrorId) (r : SourceText) : SourceText :=
  { r with
    status := .evaluated
    evaluationError := some e
    asyncState := if r.asyncState = .pending then .settled else r.asyncState }

namespace EvaluationWalk

/-- Where a module goes from the stack. -/
theorem completeStatus_cases {r : SourceText} (hw : r.status.isWalked = true) :
    (r.status = .evaluating ∧ r.asyncState = .pending ∧ completeStatus r = .evaluatingAsync) ∨
    (r.status = .evaluating ∧ r.asyncState ≠ .pending ∧ completeStatus r = .evaluated) ∨
    (r.status = .asyncSubgraphsSearching ∧ r.asyncState = .pending ∧
      completeStatus r = .asyncSubgraphsSearchingAsync) ∨
    (r.status = .asyncSubgraphsSearching ∧ r.asyncState ≠ .pending ∧
      completeStatus r = .asyncSubgraphsEvaluated) := by
  by_cases hp : r.asyncState = .pending <;> cases hr : r.status <;>
    simp [hr, Status.isWalked] at hw <;> simp [completeStatus, hr, hp]

end EvaluationWalk

/-- What has to hold of a module that no walk has to do with. -/
structure Unwalked (p : Spot) (r : SourceText) : Prop where
  awaits : r.entries.awaits = true → r.status ≠ .asyncSubgraphsSearchingAsync ∧
    r.status ≠ .asyncSubgraphsEvaluated
  pending : r.asyncState = .pending → r.status.isWaiting = true
  waiting : r.status = .evaluatingAsync ∨ r.status = .asyncSubgraphsSearchingAsync →
    r.asyncState = .pending
  begun : p.begun → r.status = .evaluated ∨
    (r.entries.awaits = true ∧ r.status = .evaluatingAsync ∧ r.pendingAsync = 0 ∧ ¬p.free) ∨
    (r.entries.awaits = false ∧ r.status = .evaluatingAsync ∧ p.lone)
  evaluated : r.status = .evaluated → r.evaluationError = none → r.entries.awaits = false →
    p.ended
  error : r.status ≠ .evaluated → r.evaluationError = none
  free : p.free → r.status = .evaluated ∨
    (r.status = .evaluatingAsync ∧ (r.entries.awaits = true → r.pendingAsync = 0)) ∨
    (r.status = .asyncSubgraphsSearchingAsync ∧ r.pendingAsync = 0)
  parents : r.asyncParents.Nodup

theorem Unwalked.lawful {p : Spot} {r : SourceText} (h : Unwalked p r) (hn : ¬p.ahead)
    (hs : ¬p.stacked) (hw : r.status.isWalked = false) : Lawful p r where
  stacked := iff_of_false hs (by simp [hw])
  framed t ht := absurd (.inr ⟨t, ht⟩) hn
  running hr := absurd (.inl hr) hn
  passed _ he := by simp [he, Status.isWalked] at hw
  searched _ he := by simp [he, Status.isWalked] at hw
  awaits ha := ⟨fun he ↦ by simp [he, Status.isWalked] at hw, h.awaits ha⟩
  pending := h.pending
  waiting := h.waiting
  begun hb := by
    rcases h.begun hb with he | ⟨ha, he, h0, hf⟩ | ⟨ha, he, hl⟩
    · exact .inl he
    · exact .inr (.inl ⟨ha, h.waiting (.inl he), .inr he, h0, hf⟩)
    · exact .inr (.inr (.inr ⟨ha, he, hl⟩))
  evaluated := h.evaluated
  error := h.error
  free hf := by
    rcases h.free hf with he | he | he
    · exact .inl he
    · exact .inr (.inl he)
    · exact .inr (.inr (.inl he))
  parents := h.parents

/-- What holds of a module that no walk has to do with. -/
theorem Lawful.unwalked {p : Spot} {r : SourceText} (L : Lawful p r) (hs : ¬p.stacked) :
    r.status.isWalked = false ∧ Unwalked p r := by
  have hw : r.status.isWalked = false := by
    rw [← Bool.not_eq_true]
    exact fun h ↦ hs (L.stacked.2 h)
  have he : r.status ≠ .evaluating := fun he ↦ by simp [he, Status.isWalked] at hw
  refine ⟨hw, fun ha ↦ (L.awaits ha).2, L.pending, L.waiting, fun hb ↦ ?_, L.evaluated, L.error,
    fun hf ↦ ?_, L.parents⟩
  · rcases L.begun hb with h | ⟨ha, -, h | h, h0, hf⟩ | ⟨-, h, -⟩ | h
    · exact .inl h
    · exact absurd h he
    · exact .inr (.inl ⟨ha, h, h0, hf⟩)
    · exact absurd h he
    · exact .inr (.inr h)
  · rcases L.free hf with h | h | h | ⟨h, -⟩
    · exact .inl h
    · exact .inr (.inl h)
    · exact .inr (.inr h)
    · exact absurd h he

/-- A module of a component that the walk is through with. -/
theorem Lawful.complete {p p' : Spot} {r : SourceText} (root : ModuleId)
    (L : Lawful p r.outline) (hw : r.status.isWalked = true) (hn : ¬p.ahead) (hn' : ¬p'.ahead)
    (hs : ¬p'.stacked) (hb : p'.begun → p.begun) (he : p.ended → p'.ended)
    (hF : p'.free ↔ p.free) :
    Lawful p' (r.complete root).outline := by
  have hpassed := L.passed hn
  have hbegun := L.begun
  have hfree := L.free
  have hawaits := L.awaits
  have herror : r.status ≠ .evaluated → r.evaluationError = none := fun h ↦
    L.error (by simpa using h)
  simp only [SourceText.outline_status, SourceText.outline_entries, SourceText.outline_asyncState,
    SourceText.outline_pendingAsync, Status.outline_eq_evaluated, Status.outline_eq_evaluating,
    Status.outline_eq_evaluatingAsync, Status.outline_eq_searching,
    Status.outline_eq_searchingAsync, ne_eq] at hpassed hbegun hfree hawaits
  rcases EvaluationWalk.completeStatus_cases hw with
    ⟨hr, hp, hc⟩ | ⟨hr, hp, hc⟩ | ⟨hr, hp, hc⟩ | ⟨hr, hp, hc⟩
  · simp only [hr, hp, reduceCtorEq, false_or, true_and, false_and, and_false, or_false,
      not_true_eq_false] at hbegun hfree
    refine Unwalked.lawful ?_ hn' hs (by simp [SourceText.complete, hc, Status.isWalked])
    constructor <;> simp only [SourceText.outline_status, SourceText.complete, hc, Status.outline]
    · simp
    · exact fun _ ↦ rfl
    · exact fun _ ↦ hp
    · exact fun h ↦ .inr (.inl ⟨(hbegun (hb h)).1, trivial, (hbegun (hb h)).2.1,
        fun hf ↦ (hbegun (hb h)).2.2 (hF.1 hf)⟩)
    · simp
    · exact fun _ ↦ herror (by simp [hr])
    · intro hf
      have hw' := hfree (hF.1 hf)
      exact .inr (.inl ⟨trivial, fun ha ↦ by simp [hw'] at ha⟩)
    · exact L.parents
  · refine Unwalked.lawful ?_ hn' hs (by simp [SourceText.complete, hc, Status.isWalked])
    constructor <;> simp only [SourceText.outline_status, SourceText.complete, hc, Status.outline]
    · simp
    · exact fun h ↦ absurd h hp
    · simp
    · exact fun _ ↦ .inl trivial
    · exact fun _ _ _ ↦ he ((hpassed hr).resolve_left hp).2
    · simp
    · exact fun _ ↦ .inl trivial
    · exact L.parents
  · have hbegun' : ¬p.begun := fun h ↦ by
      have := hbegun h
      simp [hr] at this
    have hfree' : ¬p.free := fun h ↦ by
      have := hfree h
      simp [hr] at this
    refine Unwalked.lawful ?_ hn' hs (by simp [SourceText.complete, hc, Status.isWalked])
    constructor <;> simp only [SourceText.outline_status, SourceText.complete, hc, Status.outline]
    · exact fun ha ↦ absurd hr (hawaits ha).1
    · exact fun _ ↦ rfl
    · exact fun _ ↦ hp
    · exact fun h ↦ absurd (hb h) hbegun'
    · simp
    · exact fun _ ↦ herror (by simp [hr])
    · exact fun h ↦ absurd (hF.1 h) hfree'
    · exact L.parents
  · have hbegun' : ¬p.begun := fun h ↦ by
      have := hbegun h
      simp [hr] at this
    have hfree' : ¬p.free := fun h ↦ by
      have := hfree h
      simp [hr] at this
    refine Unwalked.lawful ?_ hn' hs (by simp [SourceText.complete, hc, Status.isWalked])
    constructor <;> simp only [SourceText.outline_status, SourceText.complete, hc, Status.outline]
    · exact fun ha ↦ absurd hr (hawaits ha).1
    · exact fun h ↦ absurd h hp
    · simp
    · exact fun h ↦ absurd (hb h) hbegun'
    · simp
    · exact fun _ ↦ herror (by simp [hr])
    · exact fun h ↦ absurd (hF.1 h) hfree'
    · exact L.parents

/-- A module of a walk that has failed. -/
theorem Lawful.fail {p p' : Spot} {r : SourceText} (e : ErrorId) (L : Lawful p r.outline)
    (hn : ¬p'.ahead) (hs : ¬p'.stacked) :
    Lawful p' (r.fail e).outline := by
  refine Unwalked.lawful ⟨fun _ ↦ ⟨nofun, nofun⟩, fun h ↦ ?_, fun h ↦ ?_, fun _ ↦ .inl rfl,
    nofun, fun h ↦ absurd rfl h, fun _ ↦ .inl rfl, L.parents⟩ hn hs rfl
  · change (if r.asyncState = .pending then AsyncState.settled else r.asyncState) = .pending at h
    split at h
    · exact nomatch h
    · next hp => exact absurd h hp
  · rcases h with h | h <;> exact nomatch h

/-! ## Several modules at once -/

/-- A change of some modules by which nobody waits for less, or lets others wait for more. -/
structure Change (o o' : Outline) (gone : ModuleId → Prop) : Prop where
  off : ∀ x, ¬gone x → o' x = o x
  on : ∀ x r, gone x → o x = some r → ∃ r', o' x = some r' ∧ r'.entries = r.entries ∧
    r'.asyncParents = r.asyncParents ∧ (r'.status.isWaiting = true → r.status.isWaiting = true) ∧
    (r'.status ≠ .evaluated → r.status ≠ .evaluated ∧ r.waitsFor ≤ r'.waitsFor)
  none : ∀ x, o x = none → o' x = none

namespace Change

variable {o o' : Outline} {gone : ModuleId → Prop} {Z : List ModuleId}

theorem keeps (h : Change o o' gone) : Sound.Keeps o o' := fun x r hr ↦ by
  by_cases hx : gone x
  · obtain ⟨r', hr', he, -⟩ := h.on x r hx hr
    exact ⟨r', hr', he⟩
  · exact ⟨r, by rw [h.off x hx, hr], rfl⟩

/-- A module after the change, in terms of the module before. -/
theorem before (h : Change o o' gone) {x : ModuleId} {r' : SourceText} (hr' : o' x = some r') :
    ∃ r, o x = some r ∧ r'.entries = r.entries ∧ r'.asyncParents = r.asyncParents ∧
      (r'.status.isWaiting = true → r.status.isWaiting = true) ∧
      (r'.status ≠ .evaluated → r.status ≠ .evaluated ∧ r.waitsFor ≤ r'.waitsFor) := by
  by_cases hx : gone x
  · rcases hr : o x with _ | r
    · rw [h.none x hr] at hr'
      exact nomatch hr'
    · obtain ⟨q, hq, h1, h2, h3, h4⟩ := h.on x r hx hr
      obtain rfl : q = r' := by simpa [hq] using hr'
      exact ⟨r, rfl, h1, h2, h3, h4⟩
  · exact ⟨r', by rw [← h.off x hx, hr'], rfl, rfl, id, fun h ↦ ⟨h, Nat.le_refl _⟩⟩

theorem owes (h : Change o o' gone) {d x : ModuleId} (ho : Owes o' Z d x) : Owes o Z d x := by
  obtain ⟨q', hq', hw, hmem, hz⟩ := ho
  obtain ⟨q, hq, he, hp, hwait, -⟩ := h.before hq'
  exact ⟨q, hq, hwait hw, hp ▸ hmem, he ▸ hz⟩

end Change

namespace Sound

variable {s : Store} {o o' : Outline} {goal : EvaluationGoal} {st : Stance} {w : EvaluationWalk}
  {τ τ' : Tour} {T T' : List Tour} {F X G : List ModuleId} {H H' : List Event} {m : ModuleId}
  {r r' : SourceText} {gone : ModuleId → Prop}

/-- What a move has to show that changes some modules in that way. -/
theorem of_change (h : Sound o T F X G H) (hc : Change o o' gone)
    (hstacks : (T'.flatMap (·.walk.stack)).Nodup)
    (hpath : ∀ τ ∈ T', τ.path.Sublist τ.walk.stack)
    (hrooted : ∀ τ ∈ T', τ.walk.stack.getLast? = τ.path.getLast?)
    (hground : ∀ τ ∈ T', ∀ b, τ.walk.stack.getLast? = some b → ¬gone b ∧
      ∃ τ₀ ∈ T, τ₀.walk.stack.getLast? = some b)
    (hstart : ∀ τ ∈ T', ∀ d t, τ.stance = .coming d t → τ.walk.frames = [] → τ.walk = {})
    (hknown : ∀ τ ∈ T', ∀ x ∈ τ.walk.stack, ∃ τ₀ ∈ T, x ∈ τ₀.walk.stack)
    (hback : ∀ τ ∈ T', ∀ d, τ.stance = .back d → (o d).isSome)
    (hspot : ∀ x, ¬gone x → spot T' F X H x = spot T F X H x)
    (hL : ∀ x r r', gone x → o x = some r → o' x = some r' → Lawful (spot T' F X H x) r') :
    Sound o' T' F X G H where
  stacked := hstacks
  path := hpath
  rooted := hrooted
  ground τ hτ b hb := by
    obtain ⟨hnot, τ₀, hτ₀, hb₀⟩ := hground τ hτ b hb
    rw [hc.off b hnot]
    exact h.ground τ₀ hτ₀ b hb₀
  start := hstart
  known τ hτ x hx := by
    obtain ⟨τ₀, hτ₀, hx₀⟩ := hknown τ hτ x hx
    exact hc.keeps.isSome (h.known τ₀ hτ₀ x hx₀)
  back τ hτ d hd := hc.keeps.isSome (hback τ hτ d hd)
  queue := h.queue
  lone := h.lone_of_keeps hc.keeps
  onceBegun := h.onceBegun
  began := h.began_of_keeps hc.keeps
  lawful x r' hr' := by
    by_cases hx : gone x
    · obtain ⟨r, hr, -⟩ := hc.before hr'
      exact hL x r r' hx hr hr'
    · rw [hspot x hx]
      exact h.lawful x r' (by rw [← hc.off x hx, hr'])
  counted x r' hr' hs := by
    obtain ⟨r, hr, -, -, -, hwaits⟩ := hc.before hr'
    obtain ⟨hs', hle⟩ := hwaits hs
    exact (h.counted x r hr hs').mono (fun d ↦ hc.owes) (Nat.le_refl _) hle

theorem not_mem_other_stacks (h : Sound o (τ :: T) F X G H) {x : ModuleId}
    (hx : x ∈ τ.walk.stack) : ∀ τ' ∈ T, x ∉ τ'.walk.stack := fun τ' hτ' hx' ↦
  (List.nodup_append.1 h.stacked).2.2 x hx x (List.mem_flatMap.2 ⟨τ', hτ', hx'⟩) rfl

/-- The bottom of a stack is the bottom of the path also when the top of both is taken off. -/
theorem getLast?_below {α : Type} {above below rest : List α} {a : α}
    (hr : (above ++ a :: below).getLast? = (a :: rest).getLast?) (hsub : rest.Sublist below)
    (ha : a ∉ below) : below.getLast? = rest.getLast? := by
  have hr' : (a :: below).getLast? = (a :: rest).getLast? := by
    rw [← hr, List.getLast?_append]
    simp [List.getLast?_cons]
  rcases rest with _ | ⟨c, rest⟩
  · rcases below with _ | ⟨b, below⟩
    · rfl
    · have : a ∈ b :: below := List.mem_of_getLast? (by simpa [List.getLast?_cons] using hr')
      exact absurd this ha
  · rcases below with _ | ⟨b, below⟩
    · exact nomatch hsub.length_le
    · simpa [List.getLast?_cons] using hr'

/-- A walk is through with all modules of a component that it takes off its stack. -/
theorem not_ahead_of_popped {above below : List ModuleId}
    (h : Sound o (⟨goal, .through m, w⟩ :: T) F X G H) (hstack : w.stack = above ++ m :: below)
    (hm : m ∉ above) {x : ModuleId} (hx : x ∈ above ++ [m]) :
    ¬(spot (⟨goal, .through m, w⟩ :: T) F X H x).ahead ∧
      ¬(spot (⟨goal, .back m, { w with stack := below }⟩ :: T) F X H x).ahead := by
  have htop : (⟨goal, .through m, w⟩ : Tour) ∈ (⟨goal, .through m, w⟩ :: T : List Tour) :=
    List.mem_cons_self
  have hnodup : ((above ++ [m]) ++ below).Nodup := by
    have : (above ++ m :: below).Nodup := hstack ▸ (List.nodup_append.1 h.stacked).1
    simpa using this
  have hxw : x ∈ w.stack := by
    rw [hstack]
    simp only [List.mem_append, List.mem_cons, List.not_mem_nil, or_false] at hx ⊢
    exact hx.imp id .inl
  have hpath : (w.frames.map (·.module)).Sublist below :=
    sublist_of_cons_sublist (hstack ▸ h.path _ htop) hm
  have hxf : ∀ f ∈ w.frames, f.module ≠ x := fun f hf hfx ↦
    (List.nodup_append.1 hnodup).2.2 x hx x
      (hpath.subset (hfx ▸ List.mem_map_of_mem hf)) rfl
  have hxT : ∀ τ ∈ T, x ∉ τ.path := fun τ hτ hxτ ↦
    h.not_mem_other_stacks hxw τ hτ ((h.path τ (List.mem_cons_of_mem _ hτ)).subset hxτ)
  constructor
  all_goals
    rintro (⟨τ, hτ, hr⟩ | ⟨t, τ, hτ, f, hf, hfx, -⟩)
    · rcases List.mem_cons.1 hτ with rfl | hτ
      · contradiction
      · exact hxT τ hτ (List.mem_append_left _ (by simp [hr, Stance.top]))
    · rcases List.mem_cons.1 hτ with rfl | hτ
      · exact hxf f hf hfx
      · exact hxT τ hτ (hfx ▸ mem_path_of_mem_frames hf)

/-- A walk takes the component of a module off its stack. -/
theorem pop {above below : List ModuleId} (h : Sound s.outline (⟨goal, .through m, w⟩ :: T) F X G H)
    (hstack : w.stack = above ++ m :: below) (hm : m ∉ above) :
    Sound (s.completeMembers m (above ++ [m])).outline
      (⟨goal, .back m, { w with stack := below }⟩ :: T) F X G H := by
  have htop : (⟨goal, .through m, w⟩ : Tour) ∈ (⟨goal, .through m, w⟩ :: T : List Tour) :=
    List.mem_cons_self
  have hnodup : (above ++ m :: below).Nodup := hstack ▸ (List.nodup_append.1 h.stacked).1
  have hgone : (above ++ [m]).Nodup := by
    refine List.Sublist.nodup ?_ hnodup
    exact (List.append_sublist_append_left above).2 (List.singleton_sublist.2 List.mem_cons_self)
  have hnot : ∀ x ∈ above ++ [m], x ∉ below := by
    intro x hx hx'
    have : ((above ++ [m]) ++ below).Nodup := by simpa using hnodup
    exact (List.nodup_append.1 this).2.2 x hx x hx' rfl
  have hmem : ∀ x, x ∈ w.stack ↔ x ∈ above ++ [m] ∨ x ∈ below := fun x ↦ by
    rw [hstack]
    simp [or_assoc]
  have hpath : (w.frames.map (·.module)).Sublist below :=
    sublist_of_cons_sublist (hstack ▸ h.path _ htop) hm
  have hrooted : below.getLast? = (w.frames.map (·.module)).getLast? := by
    have hr := h.rooted _ htop
    rw [show (⟨goal, .through m, w⟩ : Tour).walk.stack = above ++ m :: below from hstack] at hr
    exact getLast?_below hr hpath (hnot m (by simp))
  have hin : ∀ x r, x ∈ above ++ [m] → s.source? x = some r →
      (s.completeMembers m (above ++ [m])).outline x = some (r.complete m).outline := fun x r ↦
    Store.outline_foldl_modifySource_of_mem (SourceText.complete m) hgone
  have hoff : ∀ x, x ∉ above ++ [m] →
      (s.completeMembers m (above ++ [m])).outline x = s.outline x := fun x ↦
    Store.outline_foldl_modifySource_of_not_mem (SourceText.complete m) hgone s
  have hwalked : ∀ x r, x ∈ above ++ [m] → s.source? x = some r → r.status.isWalked = true := by
    intro x r hx hr
    have := (h.lawful x _ (Store.outline_eq_some hr)).stacked.1
      ⟨_, htop, (hmem x).2 (.inl hx)⟩
    simpa using this
  have hahead := fun x (hx : x ∈ above ++ [m]) ↦ h.not_ahead_of_popped hstack hm hx
  have hc : Change s.outline (s.completeMembers m (above ++ [m])).outline (· ∈ above ++ [m]) := by
    refine ⟨hoff, fun x p hx hp ↦ ?_, fun x hx ↦ ?_⟩
    · obtain ⟨r, hr, rfl⟩ := Store.source?_of_outline hp
      have hw := hwalked x r hx hr
      refine ⟨_, hin x r hx hr, rfl, rfl, fun _ ↦ ?_, fun hs ↦ ⟨fun he ↦ ?_, ?_⟩⟩
      · simpa using Status.isWaiting_of_isWalked hw
      · simp only [SourceText.outline_status, Status.outline_eq_evaluated] at he
        simp [he, Status.isWalked] at hw
      · have hsearched := (h.lawful x _ hp).searched (hahead x hx).1
        simp only [SourceText.waitsFor, SourceText.outline_status, Status.isWaiting_outline,
          SourceText.outline_pendingAsync, SourceText.outline_asyncState, SourceText.complete,
          Status.outline_eq_searching] at hsearched hs ⊢
        rcases EvaluationWalk.completeStatus_cases hw with
          ⟨hr', hp', hc⟩ | ⟨hr', hp', hc⟩ | ⟨hr', hp', hc⟩ | ⟨hr', hp', hc⟩
        · simp [hr', hc, Status.isWaiting]
        · simp [hc, Status.outline] at hs
        · simp [hr', hc, Status.isWaiting]
        · simp [hr', hc, Status.isWaiting, (hsearched hr').resolve_left hp']
    · by_cases hxg : x ∈ above ++ [m]
      · have := h.known _ htop x ((hmem x).2 (.inl hxg))
        simp [hx] at this
      · rw [hoff x hxg, hx]
  have htail : ∀ τ ∈ T, τ ∈ (⟨goal, .through m, w⟩ :: T : List Tour) := fun τ ↦
    List.mem_cons_of_mem _
  refine h.of_change hc ?_ ?_ ?_ ?_ ?_ ?_ ?_ ?_ ?_
  · have := h.stacked
    rw [List.flatMap_cons, hstack] at this
    rw [List.flatMap_cons]
    refine List.Sublist.nodup ?_ this
    exact ((List.sublist_cons_self m below).trans (List.sublist_append_right above _)).append
      (.refl _)
  · exact List.forall_mem_cons.2 ⟨hpath, fun τ hτ ↦ h.path τ (htail τ hτ)⟩
  · exact List.forall_mem_cons.2 ⟨hrooted, fun τ hτ ↦ h.rooted τ (htail τ hτ)⟩
  · refine List.forall_mem_cons.2 ⟨fun b hb ↦ ?_, fun τ hτ b hb ↦ ?_⟩
    · have hb' : b ∈ below := List.mem_of_getLast? hb
      refine ⟨fun hx ↦ hnot b hx hb', _, htop, ?_⟩
      rw [show (⟨goal, .through m, w⟩ : Tour).walk.stack = above ++ m :: below from hstack,
        List.getLast?_append, List.getLast?_cons, hb]
      rfl
    · exact ⟨fun hx ↦ h.not_mem_other_stacks ((hmem b).2 (.inl hx)) τ hτ (List.mem_of_getLast? hb),
        τ, htail τ hτ, hb⟩
  · exact List.forall_mem_cons.2 ⟨by simp, fun τ hτ ↦ h.start τ (htail τ hτ)⟩
  · exact List.forall_mem_cons.2 ⟨fun x hx ↦ ⟨_, htop, (hmem x).2 (.inr hx)⟩,
      fun τ hτ x hx ↦ ⟨τ, htail τ hτ, hx⟩⟩
  · refine List.forall_mem_cons.2 ⟨?_, fun τ hτ ↦ h.back τ (htail τ hτ)⟩
    rintro d hd
    cases hd
    exact h.known _ htop m ((hmem m).2 (.inl (by simp)))
  · intro x hx
    apply Spot.ext <;> simp only [spot, List.mem_cons, exists_eq_or_imp, iff_self, implies_true,
      reduceCtorEq, hmem, hx, false_or]
  · intro x p q hx hp hq
    obtain ⟨r, hr, rfl⟩ := Store.source?_of_outline hp
    obtain rfl : (r.complete m).outline = q := by simpa [hin x r hx hr] using hq
    refine (h.lawful x _ hp).complete m (hwalked x r hx hr) (hahead x hx).1 (hahead x hx).2 ?_
      id id Iff.rfl
    rintro ⟨τ, hτ, hxτ⟩
    rcases List.mem_cons.1 hτ with rfl | hτ
    · exact hnot x hx hxτ
    · exact h.not_mem_other_stacks ((hmem x).2 (.inl hx)) τ hτ hxτ

/-- A walk fails, and the modules on its stack with it. -/
theorem fail (h : Sound s.outline (τ :: T) F X G H) (e : ErrorId) :
    Sound (s.failModules τ.walk.stack e).outline T F X G H := by
  have htop : τ ∈ τ :: T := List.mem_cons_self
  have htail : ∀ τ' ∈ T, τ' ∈ τ :: T := fun τ' ↦ List.mem_cons_of_mem _
  have hnodup : τ.walk.stack.Nodup := (List.nodup_append.1 h.stacked).1
  have hin : ∀ x r, x ∈ τ.walk.stack → s.source? x = some r →
      (s.failModules τ.walk.stack e).outline x = some (r.fail e).outline := fun x r ↦
    Store.outline_foldl_modifySource_of_mem (SourceText.fail e) hnodup
  have hoff : ∀ x, x ∉ τ.walk.stack → (s.failModules τ.walk.stack e).outline x = s.outline x :=
    fun x ↦ Store.outline_foldl_modifySource_of_not_mem (SourceText.fail e) hnodup s
  have hc : Change s.outline (s.failModules τ.walk.stack e).outline (· ∈ τ.walk.stack) := by
    refine ⟨hoff, fun x p hx hp ↦ ?_, fun x hx ↦ ?_⟩
    · obtain ⟨r, hr, rfl⟩ := Store.source?_of_outline hp
      exact ⟨_, hin x r hx hr, rfl, rfl, nofun, fun h ↦ absurd rfl h⟩
    · by_cases hxg : x ∈ τ.walk.stack
      · have := h.known _ htop x hxg
        simp [hx] at this
      · rw [hoff x hxg, hx]
  have hother := fun x (hx : x ∈ τ.walk.stack) ↦ h.not_mem_other_stacks hx
  refine h.of_change hc (List.nodup_append.1 h.stacked).2.1 (fun τ' hτ ↦ h.path τ' (htail τ' hτ))
    (fun τ' hτ ↦ h.rooted τ' (htail τ' hτ)) (fun τ' hτ b hb ↦ ⟨fun hx ↦ ?_, τ', htail τ' hτ, hb⟩)
    (fun τ' hτ ↦ h.start τ' (htail τ' hτ)) (fun τ' hτ x hx ↦ ⟨τ', htail τ' hτ, hx⟩)
    (fun τ' hτ ↦ h.back τ' (htail τ' hτ)) (fun x hx ↦ ?_) fun x p q hx hp hq ↦ ?_
  · exact hother b hx τ' hτ (List.mem_of_getLast? hb)
  · have hpath : x ∉ τ.path := fun hp ↦ hx ((h.path τ htop).subset hp)
    have hframes : ∀ f ∈ τ.walk.frames, f.module ≠ x := fun f hf hfx ↦
      hpath (hfx ▸ mem_path_of_mem_frames hf)
    have hrun : τ.stance ≠ .running x := fun hr ↦
      hpath (List.mem_append_left _ (by simp [hr, Stance.top]))
    apply Spot.ext <;> simp only [spot, List.mem_cons, exists_eq_or_imp, iff_self, hx, hrun,
      false_or]
    intro t
    refine ⟨.inr, fun hf ↦ hf.resolve_left ?_⟩
    rintro ⟨f, hf, hfx, -⟩
    exact hframes f hf hfx
  · obtain ⟨r, hr, rfl⟩ := Store.source?_of_outline hp
    obtain rfl : (r.fail e).outline = q := by simpa [hin x r hx hr] using hq
    refine (h.lawful x _ hp).fail e ?_ ?_
    · rintro (⟨τ', hτ, hr⟩ | ⟨t, τ', hτ, f, hf, hfx, -⟩)
      · exact hother x hx τ' hτ ((h.path τ' (htail τ' hτ)).subset
          (List.mem_append_left _ (by simp [hr, Stance.top])))
      · exact hother x hx τ' hτ ((h.path τ' (htail τ' hτ)).subset
          (hfx ▸ mem_path_of_mem_frames hf))
    · rintro ⟨τ', hτ, hxτ⟩
      exact hother x hx τ' hτ hxτ

/-- A walk ends. -/
theorem done (h : Sound o (⟨goal, .here, w⟩ :: T) F X G H) (hf : w.frames = []) :
    Sound o T F X G H := by
  have htop : (⟨goal, .here, w⟩ : Tour) ∈ (⟨goal, .here, w⟩ :: T : List Tour) := List.mem_cons_self
  have hstack : w.stack = [] := by
    have := h.rooted _ htop
    simpa [Tour.path, Stance.top, hf] using this
  have htail : ∀ τ ∈ T, τ ∈ (⟨goal, .here, w⟩ :: T : List Tour) := fun τ ↦ List.mem_cons_of_mem _
  have hc : Change o o fun _ ↦ False := ⟨fun _ _ ↦ rfl, fun _ _ h ↦ h.elim, fun _ h ↦ h⟩
  refine h.of_change hc (List.nodup_append.1 h.stacked).2.1 (fun τ hτ ↦ h.path τ (htail τ hτ))
    (fun τ hτ ↦ h.rooted τ (htail τ hτ)) (fun τ hτ b hb ↦ ⟨id, τ, htail τ hτ, hb⟩)
    (fun τ hτ ↦ h.start τ (htail τ hτ)) (fun τ hτ x hx ↦ ⟨τ, htail τ hτ, hx⟩)
    (fun τ hτ ↦ h.back τ (htail τ hτ)) (fun x _ ↦ ?_) fun _ _ _ h ↦ h.elim
  apply Spot.ext <;> simp [spot, hf, hstack]

end Sound
end EcmaModules
