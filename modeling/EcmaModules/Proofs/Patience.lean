import EcmaModules.Proofs.Smooth
import EcmaModules.Proofs.Tally

/-!
# Nobody waits for ever

When no job is left and every body that was called has come to its end, no module waits any more, in
runs in which nothing goes wrong. A module that waits for others has one among them that will tell it,
and waits for itself only while its body is suspended. So it takes a circle of modules that wait for
each other to make one wait for ever, as in a network that is to be free of deadlocks. Whoever waits
for a module requests it, and there are no such circles of requests.
-/

namespace EcmaModules

/-! ## Moves -/

theorem Scene.Straight.toAlone {S : Scene} (h : S.Straight) : S.Alone := ⟨h.single, h.alone, h.goals⟩

/-- In runs of the smooth kind, whatever a module waits for will come. -/
theorem Moves.backed {S S' : Scene} (hmoves : Moves .smooth S S') (hv : Valid S) (hs : S.Straight)
    (h : S.Backed) : S'.Backed := by
  induction hmoves with
  | refl => exact h
  | tail hmoves hmove ih =>
    have hstraight := Moves.straight hmoves hv hs
    exact hmove.backed id (Moves.valid hmoves hv) hstraight.toAlone (.inl id)
      (fun x _ _ _ ↦ hstraight.errorless _) ih

theorem Store.Fresh.backed {s : Store} (h : s.Fresh) : ((State.idle s).scene []).Backed := by
  refine .of_fresh fun x r hr ↦ ?_
  obtain ⟨q, hq, rfl⟩ := Store.source?_of_outline hr
  obtain ⟨-, -, -, hstate, -, hparents, hpending⟩ := h.source x q hq
  exact ⟨hstate, hparents, hpending⟩

/-! ## Between calls -/

namespace Store

variable {s : Store} {H : List Event} {x : ModuleId} {r : SourceText}

/-- There are no jobs, and the bodies that were called have come to their ends. -/
structure Drained (s : Store) (H : List Event) : Prop where
  jobs : s.jobs = []
  bodies : ∀ m p, .began m (some p) ∈ H → ∀ rs, s.promise? p ≠ some (.pending rs)

/-- There are finitely many modules, so that modules can be followed along their requests to an end. -/
theorem Acyclic.wellFoundedOn (h : s.Acyclic) :
    {x | (s.source? x).isSome}.WellFoundedOn fun y x ↦ Relation.TransGen s.Requests x y := by
  have : IsStrictOrder ModuleId fun y x ↦ Relation.TransGen s.Requests x y :=
    { irrefl := h.irreflexive, trans := fun _ _ _ hxy hyz ↦ hyz.trans hxy }
  have hfinite : {x | (s.source? x).isSome}.Finite := by
    refine ((Set.finite_Iio s.modules.size).preimage
      (fun _ _ _ _ ↦ congrArg ModuleId.mk : Set.InjOn ModuleId.index _)).subset fun x hx ↦ ?_
    exact index_lt_of_source hx
  exact hfinite.wellFoundedOn

/-- A module that waits for itself has been called, and its body is not over. -/
theorem Drained.not_released (h : s.Drained H) (hv : Valid ⟨s, [], [], [], [], [], H⟩)
    (hkeeps : s.keepsJobs = true) (hr : s.source? x = some r) (hp : r.asyncState = .pending) :
    ¬Released [] H x := by
  rintro (hx | ⟨c, hc⟩)
  · exact absurd hx List.not_mem_nil
  have ho := outline_eq_some hr
  have hlawful := hv.sound.lawful x _ ho
  have hwaiting := hlawful.pending hp
  obtain ⟨q, hq, hawaits⟩ := hv.sound.began x c hc
  obtain rfl := Option.some.inj (ho.symm.trans hq)
  rcases hlawful.begun ⟨c, hc⟩ with hst | ⟨hw, -⟩ | ⟨-, -, hnot⟩ | ⟨-, -, hlone⟩
  · rw [hst] at hwaiting
    contradiction
  · obtain ⟨p, rfl⟩ := Option.isSome_iff_exists.1 (hawaits.trans hw)
    -- the token is a reaction to the promise of the body
    have htoken := hv.token hkeeps x p hc _ ho fun hst ↦ by rw [hst] at hwaiting; contradiction
    rw [tokens, h.jobs, List.append_nil, List.countP_nil, Nat.zero_add] at htoken
    unfold reactions at htoken
    split at htoken
    · next rs hpending => exact h.bodies x p hc rs hpending
    · contradiction
  · exact hnot hp
  · exact absurd hlone List.not_mem_nil

/-- Somebody is to tell a module that waits, and is requested by it. -/
theorem Drained.exists_awaited (h : s.Drained H) (hv : Valid ⟨s, [], [], [], [], [], H⟩)
    (hs : Scene.Straight ⟨s, [], [], [], [], [], H⟩) (hb : Backed s.outline [] [] [] H)
    (hkeeps : s.keepsJobs = true) (hr : s.source? x = some r) (hp : r.asyncState = .pending) :
    ∃ y q, s.Requests x y ∧ s.source? y = some q ∧ q.asyncState = .pending := by
  have ho := outline_eq_some hr
  have hpos : 0 < r.pendingAsync :=
    (hb.pending x _ ho hp).resolve_left (h.not_released hv hkeeps hr hp)
  have hcount : r.outline.waitsFor = r.pendingAsync :=
    SourceText.waitsFor_of_waiting ((hv.sound.lawful x _ ho).pending hp)
  obtain ⟨y, hy⟩ := (hb.owed x _ ho (heeded_of_root hr (hs.errorless _))).exists_owes (hcount ▸ hpos)
  obtain ⟨q, hq, hpending, hmem⟩ := hv.sound.owes_iff.1 hy
  exact ⟨y, q, (hs.known y q hq x hmem).2, hq, hpending⟩

/-- When nothing is left to be done, no module waits. -/
theorem Drained.asyncState_ne_pending (h : s.Drained H) (hv : Valid ⟨s, [], [], [], [], [], H⟩)
    (hs : Scene.Straight ⟨s, [], [], [], [], [], H⟩) (hb : Backed s.outline [] [] [] H)
    (hacyclic : s.Acyclic) (hkeeps : s.keepsJobs = true) (hr : s.source? x = some r) :
    r.asyncState ≠ .pending := by
  refine hacyclic.wellFoundedOn.induction
    (P := fun x ↦ ∀ r, s.source? x = some r → r.asyncState ≠ .pending) (Option.isSome_of_mem hr)
    (fun x _ ih r hr hp ↦ ?_) r hr
  obtain ⟨y, q, hxy, hq, hpending⟩ := h.exists_awaited hv hs hb hkeeps hr hp
  exact ih y (Option.isSome_of_mem hq) (.single hxy) q hq hpending

end Store

end EcmaModules
