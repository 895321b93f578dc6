import EcmaModules.Proofs.Moves

/-!
# Where modules stand

The invariant of evaluation behind the promise that a body runs at most once. It relates the fields
of a module to the place where the module stands: on the path of a walk, on its stack, among the
modules that were set free, and in the history.

A module that is begun is past all places from which it could be begun again. The delicate part are
modules that wait: one is begun later when its count reaches zero. So the count is never less than
the number of those modules that will still lower it, and a module that awaits is begun only when
there are none of these left.
-/

namespace EcmaModules

/-! ## Places -/

/-- Where a module stands. -/
structure Spot where
  /-- It is on the path of a walk, which goes through its requests in a traversal. -/
  framed : Traversal → Prop
  /-- A walk executes it. -/
  running : Prop
  stacked : Prop
  /-- It was set free and is to be executed. -/
  free : Prop
  /-- It was set free and is running. -/
  lone : Prop
  begun : Prop
  /-- Its body has come back without an error. -/
  ended : Prop

/-- Where a module stands. -/
def spot (T : List Tour) (F X : List ModuleId) (H : List Event) (x : ModuleId) : Spot where
  framed t := ∃ τ ∈ T, ∃ f ∈ τ.walk.frames, f.module = x ∧ f.traversal = t
  running := ∃ τ ∈ T, τ.stance = .running x
  stacked := ∃ τ ∈ T, x ∈ τ.walk.stack
  free := x ∈ F
  lone := x ∈ X
  begun := ∃ c, .began x c ∈ H
  ended := ∃ c, .ended x c (.ok ()) ∈ H

/-- The walk has the module on its path and is not yet through with it. -/
def Spot.ahead (p : Spot) : Prop := p.running ∨ ∃ t, p.framed t

theorem Spot.ext {p q : Spot} (hf : ∀ t, p.framed t ↔ q.framed t) (hr : p.running ↔ q.running)
    (hs : p.stacked ↔ q.stacked) (hF : p.free ↔ q.free) (hX : p.lone ↔ q.lone)
    (hb : p.begun ↔ q.begun) (he : p.ended ↔ q.ended) : p = q := by
  obtain ⟨_, _, _, _, _, _, _⟩ := p
  obtain ⟨_, _, _, _, _, _, _⟩ := q
  simp only [Spot.mk.injEq]
  exact ⟨funext fun t ↦ propext (hf t), propext hr, propext hs, propext hF, propext hX,
    propext hb, propext he⟩

/-! ## What holds of a module in its place -/

/-- What holds of a module that stands somewhere. -/
structure Lawful (p : Spot) (r : SourceText) : Prop where
  stacked : p.stacked ↔ r.status.isWalked = true
  framed : ∀ t, p.framed t → r.status = t.status ∧ r.asyncState ≠ .pending ∧ ¬p.begun
  running : p.running → r.status = .evaluating ∧ p.begun
  passed : ¬p.ahead → r.status = .evaluating →
    r.asyncState = .pending ∨ r.entries.awaits = false ∧ p.ended
  searched : ¬p.ahead → r.status = .asyncSubgraphsSearching →
    r.asyncState = .pending ∨ r.pendingAsync = 0
  awaits : r.entries.awaits = true → r.status ≠ .asyncSubgraphsSearching ∧
    r.status ≠ .asyncSubgraphsSearchingAsync ∧ r.status ≠ .asyncSubgraphsEvaluated
  pending : r.asyncState = .pending → r.status.isWaiting = true
  waiting : r.status = .evaluatingAsync ∨ r.status = .asyncSubgraphsSearchingAsync →
    r.asyncState = .pending
  begun : p.begun → r.status = .evaluated ∨
    (r.entries.awaits = true ∧ r.asyncState = .pending ∧
      (r.status = .evaluating ∨ r.status = .evaluatingAsync) ∧ r.pendingAsync = 0 ∧ ¬p.free) ∨
    (r.entries.awaits = false ∧ r.status = .evaluating ∧ r.asyncState ≠ .pending) ∨
    (r.entries.awaits = false ∧ r.status = .evaluatingAsync ∧ p.lone)
  evaluated : r.status = .evaluated → r.evaluationError = none → r.entries.awaits = false →
    p.ended
  error : r.status ≠ .evaluated → r.evaluationError = none
  free : p.free → r.status = .evaluated ∨
    (r.status = .evaluatingAsync ∧ (r.entries.awaits = true → r.pendingAsync = 0)) ∨
    (r.status = .asyncSubgraphsSearchingAsync ∧ r.pendingAsync = 0) ∨
    (r.status = .evaluating ∧ r.entries.awaits = false)
  parents : r.asyncParents.Nodup

/-- A module that is not yet over will lower the count of a parent when it is. A module that was set
free and does not await has done that already. -/
def Owes (o : Outline) (Z : List ModuleId) (d x : ModuleId) : Prop :=
  ∃ q, o d = some q ∧ q.status.isWaiting = true ∧ x ∈ q.asyncParents ∧
    (q.entries.awaits = true ∨ d ∉ Z)

/-- The number of modules that a module waits for. -/
def SourceText.waitsFor (r : SourceText) : Nat := if r.status.isWaiting then r.pendingAsync else 0

/-- The count of a module is not less than the number of modules that will lower it. -/
def Counted (o : Outline) (Z G : List ModuleId) (x : ModuleId) (n : Nat) : Prop :=
  ∃ l : List ModuleId, (∀ d, Owes o Z d x → d ∈ l) ∧ l.length + G.count x ≤ n

/-- The invariant. -/
structure Sound (o : Outline) (T : List Tour) (F X G : List ModuleId) (H : List Event) :
    Prop where
  stacked : (T.flatMap (·.walk.stack)).Nodup
  path : ∀ τ ∈ T, τ.path.Sublist τ.walk.stack
  rooted : ∀ τ ∈ T, τ.walk.stack.getLast? = τ.path.getLast?
  ground : ∀ τ ∈ T, ∀ b, τ.walk.stack.getLast? = some b →
    ∃ r, o b = some r ∧ r.dfsIndex = 0 ∧ r.dfsAncestorIndex = 0
  start : ∀ τ ∈ T, ∀ d t, τ.stance = .coming d t → τ.walk.frames = [] → τ.walk = {}
  known : ∀ τ ∈ T, ∀ x ∈ τ.walk.stack, (o x).isSome
  back : ∀ τ ∈ T, ∀ d, τ.stance = .back d → (o d).isSome
  queue : F.Nodup
  lone : ∀ x ∈ X, ∃ r, o x = some r ∧ r.entries.awaits = false ∧ ∃ c, .began x c ∈ H
  onceBegun : (begun H).Nodup
  began : ∀ x c, .began x c ∈ H → ∃ r, o x = some r ∧ c.isSome = r.entries.awaits
  lawful : ∀ x r, o x = some r → Lawful (spot T F X H x) r
  counted : ∀ x r, o x = some r → r.status ≠ .evaluated → Counted o (F ++ X) G x r.waitsFor

/-! ## Small changes -/

/-- Two modules that the invariant cannot tell apart. -/
structure Alike (r r' : SourceText) : Prop where
  entries : r'.entries = r.entries
  status : r'.status = r.status
  evaluationError : r'.evaluationError = r.evaluationError
  asyncState : r'.asyncState = r.asyncState
  asyncParents : r'.asyncParents = r.asyncParents
  pendingAsync : r'.pendingAsync = r.pendingAsync
  ground : r.dfsIndex = 0 → r.dfsAncestorIndex = 0 → r'.dfsIndex = 0 ∧ r'.dfsAncestorIndex = 0

theorem Alike.refl (r : SourceText) : Alike r r := ⟨rfl, rfl, rfl, rfl, rfl, rfl, fun h h' ↦ ⟨h, h'⟩⟩

/-- The module gets to know an earlier point that it leads back to. -/
theorem Alike.lowerAncestor (r : SourceText) (i : Nat) :
    Alike r.outline
      ({ r with dfsAncestorIndex := min r.dfsAncestorIndex i } : SourceText).outline := by
  refine ⟨rfl, rfl, rfl, rfl, rfl, rfl, fun h0 h0' ↦ ⟨h0, ?_⟩⟩
  simp only [SourceText.outline] at h0' ⊢
  split
  · next hw =>
    rw [if_pos hw] at h0'
    simp [h0']
  · rfl

theorem Lawful.of_alike {p : Spot} {r r' : SourceText} (h : Lawful p r) (ha : Alike r r') :
    Lawful p r' := by
  obtain ⟨h1, h2, h3, h4, h5, h6, _⟩ := ha
  constructor <;> simp only [h1, h2, h3, h4, h5, h6]
  exacts [h.stacked, h.framed, h.running, h.passed, h.searched, h.awaits, h.pending, h.waiting,
    h.begun, h.evaluated, h.error, h.free, h.parents]

theorem Counted.mono {o o' : Outline} {Z Z' G G' : List ModuleId} {x : ModuleId} {n n' : Nat}
    (h : Counted o Z G x n) (ho : ∀ d, Owes o' Z' d x → Owes o Z d x)
    (hG : G'.count x ≤ G.count x) (hn : n ≤ n') : Counted o' Z' G' x n' := by
  obtain ⟨l, hl, hle⟩ := h
  exact ⟨l, fun d hd ↦ hl d (ho d hd), by omega⟩

namespace Sound

variable {o o' : Outline} {T : List Tour} {F X G : List ModuleId} {H : List Event}

/-- The outlines differ only in what the invariant does not speak of. -/
theorem of_alike (h : Sound o T F X G H) (hx : ∀ x r', o' x = some r' → ∃ r, o x = some r ∧ Alike r r')
    (hx' : ∀ x r, o x = some r → ∃ r', o' x = some r' ∧ Alike r r') : Sound o' T F X G H where
  stacked := h.stacked
  path := h.path
  rooted := h.rooted
  start := h.start
  queue := h.queue
  onceBegun := h.onceBegun
  ground τ hτ b hb := by
    obtain ⟨r, hr, h0, h0'⟩ := h.ground τ hτ b hb
    obtain ⟨r', hr', ha⟩ := hx' b r hr
    exact ⟨r', hr', ha.ground h0 h0'⟩
  known τ hτ x hmem := by
    obtain ⟨r, hr⟩ := Option.isSome_iff_exists.1 (h.known τ hτ x hmem)
    obtain ⟨r', hr', _⟩ := hx' x r hr
    simp [hr']
  back τ hτ d hd := by
    obtain ⟨r, hr⟩ := Option.isSome_iff_exists.1 (h.back τ hτ d hd)
    obtain ⟨r', hr', _⟩ := hx' d r hr
    simp [hr']
  lone x hmem := by
    obtain ⟨r, hr, hw, hb⟩ := h.lone x hmem
    obtain ⟨r', hr', ha⟩ := hx' x r hr
    exact ⟨r', hr', by rw [ha.entries, hw], hb⟩
  began x c hc := by
    obtain ⟨r, hr, hw⟩ := h.began x c hc
    obtain ⟨r', hr', ha⟩ := hx' x r hr
    exact ⟨r', hr', by rw [ha.entries, hw]⟩
  lawful x r' hr' := by
    obtain ⟨r, hr, ha⟩ := hx x r' hr'
    exact (h.lawful x r hr).of_alike ha
  counted x r' hr' hs := by
    obtain ⟨r, hr, ha⟩ := hx x r' hr'
    refine (h.counted x r hr (ha.status ▸ hs)).mono ?_ (Nat.le_refl _) ?_
    · rintro d ⟨q', hq', hw, hmem, hz⟩
      obtain ⟨q, hq, ha'⟩ := hx d q' hq'
      exact ⟨q, hq, ha'.status ▸ hw, ha'.asyncParents ▸ hmem, ha'.entries ▸ hz⟩
    · simp [SourceText.waitsFor, ha.status, ha.pendingAsync]

theorem modifySource {s : Store} (h : Sound s.outline T F X G H) (m : ModuleId)
    {f : SourceText → SourceText} (hf : ∀ r, Alike r.outline (f r).outline) :
    Sound (s.modifySource m f).outline T F X G H := by
  refine h.of_alike (fun x r' hr' ↦ ?_) fun x r hr ↦ ?_
  · by_cases hx : x = m
    · subst hx
      obtain ⟨q, hq, rfl⟩ := Store.source?_of_outline hr'
      rw [Store.source?_modifySource, if_pos rfl] at hq
      obtain ⟨r, hr, rfl⟩ := Option.map_eq_some_iff.1 hq
      exact ⟨r.outline, Store.outline_eq_some hr, hf r⟩
    · rw [Store.outline_modifySource_of_ne s hx] at hr'
      exact ⟨r', hr', .refl r'⟩
  · by_cases hx : x = m
    · subst hx
      obtain ⟨q, hq, rfl⟩ := Store.source?_of_outline hr
      exact ⟨_, Store.outline_modifySource_self hq f, hf q⟩
    · exact ⟨r, by rw [Store.outline_modifySource_of_ne s hx, hr], .refl r⟩

/-- A walk goes on to something else with the same modules on its path, but perhaps for the one on
top. -/
theorem restance {goal goal' : EvaluationGoal} {st st' : Stance} {w w' : EvaluationWalk}
    (h : Sound o (⟨goal, st, w⟩ :: T) F X G H)
    (hpath : (Tour.path ⟨goal', st', w'⟩).Sublist (Tour.path ⟨goal, st, w⟩))
    (hlast : (Tour.path ⟨goal', st', w'⟩).getLast? = (Tour.path ⟨goal, st, w⟩).getLast?)
    (hrun : ∀ x, st ≠ .running x) (hrun' : ∀ x, st' ≠ .running x)
    (hf : w'.frames.map (fun f ↦ (f.module, f.traversal)) =
      w.frames.map fun f ↦ (f.module, f.traversal))
    (hs : w'.stack = w.stack)
    (hstart : ∀ d t, st' = .coming d t → w'.frames = [] → w' = {})
    (hback : ∀ d, st' = .back d → (o d).isSome) :
    Sound o (⟨goal', st', w'⟩ :: T) F X G H := by
  have hspot : ∀ x, spot (⟨goal', st', w'⟩ :: T) F X H x = spot (⟨goal, st, w⟩ :: T) F X H x := by
    intro x
    apply Spot.ext <;> simp only [spot, List.mem_cons, exists_eq_or_imp, hs]
    · intro t
      have : (∃ f ∈ w'.frames, f.module = x ∧ f.traversal = t) ↔
          ∃ f ∈ w.frames, f.module = x ∧ f.traversal = t := by
        have hmem : ∀ fs : List EvaluationFrame, (∃ f ∈ fs, f.module = x ∧ f.traversal = t) ↔
            (x, t) ∈ fs.map fun f ↦ (f.module, f.traversal) := fun fs ↦ by
          simp [List.mem_map, Prod.ext_iff]
        rw [hmem, hmem, hf]
      rw [this]
    · simp [hrun x, hrun' x]
  have hmem : ∀ {P : Tour → Prop}, P ⟨goal', st', w'⟩ →
      (∀ τ ∈ (⟨goal, st, w⟩ :: T : List Tour), P τ) →
      ∀ τ ∈ (⟨goal', st', w'⟩ :: T : List Tour), P τ :=
    fun h0 h ↦ List.forall_mem_cons.2 ⟨h0, (List.forall_mem_cons.1 h).2⟩
  have htop : (⟨goal, st, w⟩ : Tour) ∈ (⟨goal, st, w⟩ :: T : List Tour) := List.mem_cons_self
  constructor
  · simpa [hs] using h.stacked
  · exact hmem (hs ▸ hpath.trans (h.path _ htop)) h.path
  · exact hmem (by rw [hlast]; simpa [hs] using h.rooted _ htop) h.rooted
  · exact hmem (by simpa [hs] using h.ground _ htop) h.ground
  · exact hmem hstart h.start
  · exact hmem (by simpa [hs] using h.known _ htop) h.known
  · exact hmem hback h.back
  · exact h.queue
  · exact h.lone
  · exact h.onceBegun
  · exact h.began
  · intro x r hr
    rw [hspot]
    exact h.lawful x r hr
  · exact h.counted

/-- A walk goes on to something else with the same path. -/
theorem stance {goal goal' : EvaluationGoal} {st st' : Stance} {w w' : EvaluationWalk}
    (h : Sound o (⟨goal, st, w⟩ :: T) F X G H) (hst : st.top = []) (hst' : st'.top = [])
    (hf : w'.frames.map (fun f ↦ (f.module, f.traversal)) =
      w.frames.map fun f ↦ (f.module, f.traversal))
    (hs : w'.stack = w.stack)
    (hstart : ∀ d t, st' = .coming d t → w'.frames = [] → w' = {})
    (hback : ∀ d, st' = .back d → (o d).isSome) :
    Sound o (⟨goal', st', w'⟩ :: T) F X G H := by
  have hmod : w'.frames.map (·.module) = w.frames.map (·.module) := by
    have := congrArg (List.map Prod.fst) hf
    simpa [Function.comp_def] using this
  have hpath : Tour.path ⟨goal', st', w'⟩ = Tour.path ⟨goal, st, w⟩ := by
    simp [Tour.path, hst, hst', hmod]
  have hrun : ∀ {st : Stance}, st.top = [] → ∀ x, st ≠ .running x := by
    rintro st hst x rfl
    exact nomatch hst
  exact h.restance (hpath ▸ .refl _) (by rw [hpath]) (hrun hst) (hrun hst') hf hs hstart hback

/-- The walk goes on with a module when it is through with the one above, which stays on the
stack. -/
theorem through {goal : EvaluationGoal} {m : ModuleId} {w : EvaluationWalk} {f : EvaluationFrame}
    {rest : List EvaluationFrame} (h : Sound o (⟨goal, .through m, w⟩ :: T) F X G H)
    (hf : w.frames = f :: rest) : Sound o (⟨goal, .here, w⟩ :: T) F X G H := by
  refine h.restance ?_ ?_ nofun nofun rfl rfl nofun nofun
  · exact List.sublist_cons_self _ _
  · simp [Tour.path, Stance.top, hf, List.getLast?_cons]

/-- A walk begins, with nothing on its path yet. -/
theorem embark (h : Sound o T F X G H) (goal : EvaluationGoal) (d : ModuleId) (t : Traversal) :
    Sound o (⟨goal, .coming d t, {}⟩ :: T) F X G H := by
  have hspot : ∀ x, spot (⟨goal, .coming d t, {}⟩ :: T) F X H x = spot T F X H x := fun x ↦ by
    apply Spot.ext <;> simp [spot]
  constructor
  · exact h.stacked
  · exact List.forall_mem_cons.2 ⟨.slnil, h.path⟩
  · exact List.forall_mem_cons.2 ⟨rfl, h.rooted⟩
  · exact List.forall_mem_cons.2 ⟨nofun, h.ground⟩
  · exact List.forall_mem_cons.2 ⟨fun _ _ _ _ ↦ rfl, h.start⟩
  · exact List.forall_mem_cons.2 ⟨nofun, h.known⟩
  · exact List.forall_mem_cons.2 ⟨nofun, h.back⟩
  · exact h.queue
  · exact h.lone
  · exact h.onceBegun
  · exact h.began
  · intro x r hr
    rw [hspot]
    exact h.lawful x r hr
  · exact h.counted

end Sound

end EcmaModules
