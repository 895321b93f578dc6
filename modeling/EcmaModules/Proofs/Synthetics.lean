import EcmaModules.Proofs.Extent
import EcmaModules.Proofs.Settlement

/-!
# How walks come to synthetic modules

A synthetic module has no status. Whether a walk has come to it shows in the requests that are left: as
long as none has, every module that requests it and has been entered has that request left on a path.
When a walk follows one of them, the steps of the module are run in the very next step of the machine.
-/

namespace EcmaModules

open EvaluationWalk (arrive back concludeExecuted concludeSearched execute push)

/-! ## What walks leave as it is -/

theorem SourceText.permits_tarries : Permits SourceText.Tarries where
  refl := .refl
  trans _ _ _ := .trans
  still _ _ h := .of_status (congrArg Prod.fst h.1) h.2.2.2.2
  complete root r := (SourceText.Abides.complete root r).tarries

/-- Whatever a walk does to modules but entering them. -/
theorem Store.Tarries.of_permits {s s' : Store}
    (h : ∀ R : SourceText → SourceText → Prop, Permits R → s.Each R s') : s.Tarries s' :=
  have htreads : s.Treads s' := h _ SourceText.permits_treads
  ⟨h _ SourceText.permits_tarries, .of_each (htreads.mono fun _ _ hr ↦ hr.loaded),
    htreads.capability?⟩

/-! ## Requests that are left -/

/-- The path of the walk after a step, with the requests that are left. -/
def EvaluationStep.frames : EvaluationStep → List EvaluationFrame
  | .done | .failed _ _ => []
  | .go w | .synthetic _ w | .execute _ _ w => w.frames

namespace EvaluationWalk

variable {s : Store} {w w' : EvaluationWalk} {m d : ModuleId} {t : Traversal}

theorem back_frames (h : ∀ e left, (back s w d).2 ≠ .failed e left) :
    (back s w d).2.frames = w.frames := by
  unfold back at h ⊢
  split
  · rfl
  · next f rest hf =>
    simp only [hf] at h
    split
    · rfl
    · next heq => exact absurd (by rw [heq]) (h _ _)

theorem concludeExecuted_frames (h : ∀ e left, (concludeExecuted s w m).2 ≠ .failed e left) :
    (concludeExecuted s w m).2.frames = w.frames := by
  unfold concludeExecuted at h ⊢
  split at h
  · next hc =>
    rw [if_pos hc]
    exact back_frames h
  · next hc =>
    rw [if_neg hc]
    exact back_frames h

theorem concludeSearched_frames (h : ∀ e left, (concludeSearched s w m).2 ≠ .failed e left) :
    (concludeSearched s w m).2.frames = w.frames := by
  rw [concludeSearched_eq] at h ⊢
  split at h
  · next hc =>
    rw [if_pos hc]
    exact back_frames h
  · next hc =>
    rw [if_neg hc]
    exact back_frames h

theorem execute_frames (h : ∀ e left, (execute s w m).2 ≠ .failed e left) :
    (execute s w m).2.frames = w.frames := by
  unfold execute at h ⊢
  split at h
  · rfl
  · split at h
    · next hpos =>
      rw [if_pos hpos]
      exact concludeExecuted_frames h
    · next hpos =>
      rw [if_neg hpos]
      split <;> rfl

/-- A synthetic module is come to by a request. -/
theorem follows_of_synthetic (h : (w.advance s).2 = .synthetic d w') : ∃ m t q rs rest,
    w.frames = ⟨m, t, q :: rs⟩ :: rest ∧ s.imported? m q = some d ∧ s.source? d = none ∧
      w' = { w with frames := ⟨m, t, rs⟩ :: rest } := by
  unfold advance at h
  split at h
  · exact nomatch h
  · exfalso
    unfold execute at h
    split at h
    · exact nomatch h
    · split at h
      · exact concludeExecuted_ne_synthetic h
      · split at h <;> exact nomatch h
  · rw [concludeSearched_eq] at h
    split at h <;> exact absurd h back_ne_synthetic
  · next m t q rs rest hf =>
    dsimp only at h
    split at h
    · next e he =>
      obtain ⟨hw, hnone⟩ := eq_of_arrive_synthetic h
      rw [arrive, hnone] at h
      obtain rfl := (EvaluationStep.synthetic.inj h).1
      exact ⟨m, t, q, rs, rest, hf, he, hnone, hw⟩
    · exact nomatch h

theorem executed_frames {capability : Option PromiseId} {c : Completion}
    (h : ∀ e left, (w.executed s m capability c).2 ≠ .failed e left) :
    (w.executed s m capability c).2.frames = w.frames := by
  unfold executed at h ⊢
  split at h
  · exact concludeExecuted_frames h
  · exact concludeExecuted_frames h
  · exact absurd rfl (h _ _)

theorem passed_frames {c : Completion} (h : ∀ e left, (w.passed s c).2 ≠ .failed e left) :
    (w.passed s c).2.frames = w.frames := by
  unfold passed at h ⊢
  split at h
  · rfl
  · exact absurd rfl (h _ _)

end EvaluationWalk

/-- The module lies ahead: whoever has been entered and requests it has that request left. -/
def Store.Ahead (s : Store) (fs : List EvaluationFrame) (d : ModuleId) : Prop :=
  ∀ y r q, s.source? y = some r → r.status.isEntered = true → q ∈ r.entries.requests →
    s.imported? y q = some d → ∃ f ∈ fs, f.module = y ∧ q ∈ f.requests

namespace Store.Ahead

variable {s s' : Store} {fs fs' : List EvaluationFrame} {w w' : EvaluationWalk} {m d e : ModuleId}
  {t : Traversal} {rest : List EvaluationFrame} {q : Request} {rs : List Request}

/-- Nothing is entered, and no request for the module is followed. -/
theorem keep (h : s.Ahead fs d) (hs : s.Each SourceText.Tarries s') (hi : SameImports s s')
    (hfs : ∀ f ∈ fs, ∀ q ∈ f.requests, s.imported? f.module q = some d →
      ∃ f' ∈ fs', f'.module = f.module ∧ q ∈ f'.requests) : s'.Ahead fs' d := by
  intro y r' q hr' hentered hq hd
  obtain ⟨r, hr, htarries⟩ := hs.before hr'
  have hd : s.imported? y q = some d := (hi y q).symm.trans hd
  obtain ⟨f, hf, rfl, hqf⟩ := h y r q hr (htarries.isEntered.symm.trans hentered)
    (htarries.entries ▸ hq) hd
  exact hfs f hf q hqf hd

theorem tarries (h : s.Ahead fs d) (hs : s.Tarries s') : s'.Ahead fs d :=
  h.keep hs.each hs.imports fun f hf _ hq _ ↦ ⟨f, hf, rfl, hq⟩

/-- All requests of a module are left when it is entered. -/
theorem push (h : s.Ahead w.frames d) : (push s w m t).1.Ahead (push s w m t).2.frames d := by
  intro y r' q hr' hentered hq hd
  have hgraph := EvaluationWalk.graph_push s w m t
  rw [hgraph.imports y q] at hd
  by_cases hy : y = m
  · subst hy
    refine ⟨_, List.mem_cons_self, rfl, ?_⟩
    have hentries : (EvaluationWalk.push s w y t).1.entries y = r'.entries := by
      simp [Store.entries, hr']
    exact (hgraph.entries y).symm ▸ hentries ▸ hq
  · rw [EvaluationWalk.push, source?_modifySource, if_neg hy] at hr'
    obtain ⟨f, hf, hfy, hqf⟩ := h y r' q hr' hentered hq hd
    exact ⟨f, List.mem_cons_of_mem _ hf, hfy, hqf⟩

/-- The walk is through with the requests of a module. -/
theorem through (h : s.Ahead w.frames d) (hf : w.frames = ⟨m, t, []⟩ :: rest) : s.Ahead rest d := by
  intro y r q hr hentered hq hd
  obtain ⟨f, hmem, hfy, hqf⟩ := h y r q hr hentered hq hd
  rcases List.mem_cons.1 (hf ▸ hmem) with rfl | hmem
  · exact absurd hqf List.not_mem_nil
  · exact ⟨f, hmem, hfy, hqf⟩

/-- The walk follows a request that leads elsewhere. -/
theorem follow (h : s.Ahead w.frames d) (hf : w.frames = ⟨m, t, q :: rs⟩ :: rest)
    (hne : s.imported? m q ≠ some d) : s.Ahead (⟨m, t, rs⟩ :: rest) d := by
  intro y r q' hr hentered hq' hd
  obtain ⟨f, hmem, rfl, hqf⟩ := h y r q' hr hentered hq' hd
  rcases List.mem_cons.1 (hf ▸ hmem) with rfl | hmem
  · rcases List.mem_cons.1 hqf with rfl | hqf
    · exact absurd hd hne
    · exact ⟨_, List.mem_cons_self, rfl, hqf⟩
  · exact ⟨f, List.mem_cons_of_mem _ hmem, rfl, hqf⟩

/-- The walk comes to a module with source text. -/
theorem arrive (h : s.Ahead w.frames d) (hok : ∀ e left, (arrive s w m t).2 ≠ .failed e left) :
    (arrive s w m t).1.Ahead (arrive s w m t).2.frames d := by
  unfold EvaluationWalk.arrive at hok ⊢
  split at hok
  · exact h
  · split at hok
    · exact absurd rfl (hok _ _)
    · rw [EvaluationWalk.back_frames hok]
      refine tarries ?_ (.of_permits fun _ hR ↦ hR.back _ w m)
      refine h.tarries (.of_permits fun _ hR ↦ ?_)
      split
      · exact hR.detach s w m
      · exact .refl hR.refl s
    · exact h.push

/-- A step of a walk that does not come to the module. -/
theorem advance (h : s.Ahead w.frames d) (hd : s.source? d = none)
    (hok : ∀ e left, (w.advance s).2 ≠ .failed e left)
    (hcome : ∀ w', (w.advance s).2 ≠ .synthetic d w') :
    (w.advance s).1.Ahead (w.advance s).2.frames d := by
  unfold EvaluationWalk.advance at hok hcome ⊢
  split at hok
  · next hf =>
    rw [hf] at h
    exact h
  · next m rest hf =>
    rw [EvaluationWalk.execute_frames hok]
    exact tarries (h.through hf) (.of_permits fun _ hR ↦ hR.execute s _ m)
  · next m rest hf =>
    rw [EvaluationWalk.concludeSearched_frames hok]
    exact tarries (h.through hf) (.of_permits fun _ hR ↦ hR.concludeSearched s _ m)
  · next m t q rs rest hf =>
    dsimp only at hok hcome ⊢
    rcases hi : s.imported? m q with _ | e
    · exact h.follow hf (by simp [hi])
    · simp only [hi] at hok hcome ⊢
      have hne : e ≠ d := by
        rintro rfl
        refine hcome { w with frames := ⟨m, t, rs⟩ :: rest } ?_
        simp only [hf, hi, EvaluationWalk.arrive, hd]
      exact arrive (w := { w with frames := ⟨m, t, rs⟩ :: rest }) (h.follow hf (by simp [hi, hne])) hok

end Store.Ahead

end EcmaModules
