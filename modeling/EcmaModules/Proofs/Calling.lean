import EcmaModules.Proofs.Calls
import EcmaModules.Proofs.Halting
import EcmaModules.Proofs.Interwoven
import EcmaModules.Proofs.Resolved

/-!
# Calls that link

A call for a module to be linked starts a walk, if there is anything to be linked. The walk goes on step by
step, and waits in between, while the body of a module takes the steps that belong to its environment. If
no body has further modules linked meanwhile, then this walk is the only one that links. So the call can
be told without the machine: how the walk starts (`Store.Starts`), what becomes of it and of the store
(`Store.Travels`), and how it ends (`Store.Ends`).

## Linking succeeds when all names are resolved

A walk goes through all of the graph that is not linked yet, and fails at the first module in which there is
something to complain of. In modules that were linked before there is nothing (`EcmaModules.Proofs.Resolved`),
and what there is to complain of in the others does not depend on how far linking has come.
-/

namespace EcmaModules

variable {s s' s'' s₀ : Store} {w w' : LinkWalk} {m d x root : ModuleId}
  {β : ModuleId → Option ThrownError} {calm : Prop}

/-! ## Bodies that behave in a given way -/

/-- The error that a result throws. -/
def Store.thrown? (s : Store) (r : Result) : Option ThrownError :=
  match r.toCompletion with
  | .ok () => none
  | .error e => some (s.error e)

/-- The error at which linking fails in the module, if its body throws as told. -/
def Store.verdict? (s : Store) (β : ModuleId → Option ThrownError) (m : ModuleId) : Option ThrownError :=
  (s.complaint? m).or (β m)

namespace Machine

variable {M M' : Machine}

/-- A call that is over stays so. -/
theorem step_of_result? {r : Result} (h : M.result? = some r) : M.step = M := by
  obtain ⟨hcontrol, hframes⟩ := end_of_result? h
  obtain ⟨s, control, fs⟩ := M
  obtain rfl : control = _ := hcontrol
  obtain rfl : fs = _ := hframes
  rfl

/-- A call has one result. -/
theorem iterate_eq_of_result? {n k : ℕ} {r r' : Result} (h : (step^[n] M).result? = some r)
    (h' : (step^[k] M).result? = some r') : step^[n] M = step^[k] M := by
  have hlater : ∀ {i j : ℕ} {r : Result}, (step^[i] M).result? = some r → i ≤ j → step^[i] M = step^[j] M := by
    intro i j r h hle
    obtain ⟨d, rfl⟩ := Nat.exists_eq_add_of_le hle
    rw [Nat.add_comm, Function.iterate_add_apply, Function.iterate_fixed (step_of_result? h)]
  rcases le_total n k with hle | hle
  · exact hlater h hle
  · exact (hlater h' hle).symm

/-- What holds until a call is over holds then. -/
theorem forall_iterate_of_result? {P : Machine → Prop} {n : ℕ} (h : ∀ i ≤ n, P (step^[i] M))
    (hr : (step^[n] M).result?.isSome) (i : ℕ) : P (step^[i] M) := by
  obtain ⟨r, hr⟩ := Option.isSome_iff_exists.1 hr
  rcases le_or_gt i n with hi | hi
  · exact h i hi
  · obtain ⟨d, rfl⟩ := Nat.exists_eq_add_of_le hi.le
    rw [Nat.add_comm, Function.iterate_add_apply, Function.iterate_fixed (step_of_result? hr)]
    exact h n le_rfl

/-- While a module is being linked, no other one is to be linked. A module for which evaluation is called is
linked, and the host answers with modules. -/
structure LinksAlone (M M' : Machine) : Prop where
  evaluate : ∀ m, M.control = .run (.evaluate m) → M.store.Linked m
  link : ∀ m, M.control = .run (.link m) → M.linkWalks = []
  answers : ∀ a rest m, M.control = .run (.answers (a :: rest)) → a.outcome = .ok m →
    (M.store.module? m).isSome

theorem LinksAlone.apart (h : M.LinksAlone M') : M.LinksApart M' :=
  ⟨h.evaluate, fun m hm hne ↦ absurd (h.link m hm) hne, h.answers⟩

/-- The steps that the body of a module takes when its environment is set up throw as told. -/
def Behaves (β : ModuleId → Option ThrownError) (M : Machine) : Prop :=
  ∀ r m w fs, M.control = .give r → M.frames = .setUp m w :: fs → M.store.thrown? r = β m

end Machine

/-! ### Bodies that have nothing evaluated -/

/-- The task has to do with linking, with the steps of bodies and with what they read. -/
def Task.isPlain : Task → Bool
  | .body _ | .read _ _ | .link _ | .linking _ => true
  | _ => false

/-- The frame has to do with linking and with the steps of bodies. -/
def Frame.isPlain : Frame → Bool
  | .bodyRead _ _ _ | .bodyLink _ _ | .setUp _ _ => true
  | _ => false

/-- What comes next has to do with linking and with the steps of bodies. -/
def Next.isPlain : Next → Bool
  | .goto t => t.isPlain
  | .call t f => t.isPlain && f.isPlain
  | .give _ => true

/-- A module is about to be evaluated. -/
def Machine.Evaluates (M : Machine) : Prop :=
  ∃ m, M.control = .run (.evaluate m) ∨ M.control = .run (.force m)

/-- What comes next is the evaluation of a module. -/
def Next.Evaluates (n : Next) : Prop :=
  ∃ m f, n = .call (.evaluate m) f ∨ n = .call (.force m) f

/-- Nothing but linking, and what bodies do by themselves, is under way. -/
structure Machine.Plain (M : Machine) : Prop where
  control : ∀ t, M.control = .run t → t.isPlain = true
  frames : ∀ f ∈ M.frames, f.isPlain = true

theorem Task.isPlain_advance (s : Store) {t : Task} (ht : t.isPlain = true) :
    (t.advance s).2.isPlain = true ∨ (t.advance s).2.Evaluates := by
  cases t with
  | body b =>
    simp only [advance, Body.advance]
    split
    · exact .inl rfl
    · split <;> first | exact .inl rfl | exact .inr ⟨_, _, .inl rfl⟩
  | read n name =>
    simp only [advance, Store.read]
    split
    · exact .inr ⟨_, _, .inr rfl⟩
    · exact .inl rfl
  | link m =>
    simp only [advance]
    split <;> exact .inl rfl
  | linking w =>
    simp only [advance]
    cases (w.advance s).2 <;> exact .inl rfl
  | _ => contradiction

theorem Frame.isPlain_resume (s : Store) (r : Result) {f : Frame} (hf : f.isPlain = true) :
    (f.resume s r).2.isPlain = true := by
  cases f with
  | bodyRead b label probe =>
    simp only [resume]
    split <;> rfl
  | bodyLink b name =>
    simp only [resume]
    try split
    all_goals rfl
  | setUp m w =>
    simp only [resume]
    split <;> rfl
  | _ => contradiction

namespace Machine

variable {M : Machine}

/-- This stays so, until a module is to be evaluated. -/
theorem Plain.step (h : M.Plain) : M.step.Plain ∨ M.step.Evaluates := by
  rcases hnext : M.next? with _ | x
  · exact .inl (by rwa [step_of_next?_eq_none hnext])
  have hall : ∀ {x : Store × Next} {fs : List Frame}, x.2.isPlain = true ∨ x.2.Evaluates →
      (∀ f ∈ fs, f.isPlain = true) → (apply fs x).Plain ∨ (apply fs x).Evaluates := by
    rintro ⟨s, n⟩ fs (hn | ⟨m, f, rfl | rfl⟩) hfs
    · refine .inl ?_
      cases n with
      | goto t => exact ⟨by rintro _ ⟨⟩; exact hn, hfs⟩
      | give r => exact ⟨by rintro _ ⟨⟩, hfs⟩
      | call t f =>
        obtain ⟨ht, hf⟩ := Bool.and_eq_true_iff.1 hn
        exact ⟨by rintro _ ⟨⟩; exact ht, List.forall_mem_cons.2 ⟨hf, hfs⟩⟩
    · exact .inr ⟨m, .inl rfl⟩
    · exact .inr ⟨m, .inr rfl⟩
  rw [step_of_next? hnext]
  obtain ⟨s, control, fs⟩ := M
  rcases control with t | r
  · obtain rfl : x = t.advance s := advance_of_next? hnext
    exact hall (Task.isPlain_advance s (h.control t rfl)) h.frames
  · rcases fs with _ | ⟨f, fs⟩
    · contradiction
    obtain rfl : x = f.resume s r := (Option.some.inj hnext).symm
    obtain ⟨hf, hfs⟩ := List.forall_mem_cons.1 h.frames
    exact hall (.inl (Frame.isPlain_resume s r hf)) hfs

/-- What has nothing to do with walks, nor with loading, leaves the status of modules as it is. -/
theorem StandsAside.status (h : M.StandsAside) (hin : M.Inward) (x : ModuleId) :
    M.step.store.status? x = M.store.status? x := by
  obtain ⟨s, control, fs⟩ := M
  rcases h with ⟨t, hcontrol, ht⟩ | ⟨r, f, fs', hcontrol, hframes, hf⟩
  · obtain rfl : control = _ := hcontrol
    have hload : t.isLoad = false := (Bool.or_eq_false_iff.1 hin.current).1
    rw [step_of_next? (s := (t.advance s).1) (n := (t.advance s).2), store_apply]
    · exact status?_advance s ht hload x
    · cases t <;> first | rfl | contradiction
  · obtain rfl : control = _ := hcontrol
    obtain rfl : fs = _ := hframes
    rw [step_of_next? (s := (f.resume s r).1) (n := (f.resume s r).2) rfl, store_apply]
    exact status?_resume s r hf x

/-- A step that has nothing to do with linking concerns linked modules only. -/
theorem Interlinked.spares {M' : Machine} (h : M.Interlinked) (hP : M.LinksApart M') (hin : M.Inward)
    (hlink : ∀ m, M.control ≠ .run (.link m)) (hlinks : ¬M.links) (hx : ¬M.store.Linked x) :
    M.step.store.status? x = M.store.status? x := by
  rcases hnext : M.next? with _ | out
  · rw [step_of_next?_eq_none hnext]
  cases h.interlinks hP hnext with
  | links hstep => exact absurd (hstep.resolve_left fun ⟨m, hm⟩ ↦ hlink m hm) hlinks
  | evaluates _ hsteps =>
    rw [step_of_next? hnext, store_apply]
    exact hsteps.store.status hx
  | loads haside => exact haside.status hin x

/-- If nothing is evaluated, it concerns none. -/
theorem Plain.standsAside (h : M.Plain) (hnext : M.next? ≠ none) (hlink : ∀ m, M.control ≠ .run (.link m))
    (hlinks : ¬M.links) : M.StandsAside := by
  obtain ⟨s, control, fs⟩ := M
  rcases control with t | r
  · refine .inl ⟨t, rfl, ?_⟩
    have ht := h.control t rfl
    cases t with
    | link m => exact absurd rfl (hlink m)
    | linking w => exact absurd (.inl ⟨w, rfl⟩) hlinks
    | _ => first | rfl | contradiction
  · rcases fs with _ | ⟨f, fs⟩
    · exact absurd rfl hnext
    refine .inr ⟨r, f, fs, rfl, rfl, ?_⟩
    have hf := h.frames f List.mem_cons_self
    cases f with
    | setUp m w => exact absurd (.inr ⟨r, m, w, fs, rfl, rfl⟩) hlinks
    | _ => first | rfl | contradiction

end Machine

/-! ## A walk by itself -/

/-- The walk is the only one that links. -/
structure LinkWalk.Alone (s : Store) (w : LinkWalk) : Prop where
  linking : Linking s [w]
  linkage : Linkage s [w.tour]
  woven : w.Woven s
  filed : s.Filed
  rounded : s.Rounded
  resolved : ∀ m, s.Linked m → s.Resolved m

namespace Store

/-- The walk has been started. -/
inductive Starts (s : Store) (root : ModuleId) : Store × LinkWalk → Prop where
  | enter : s.status? root = some .unlinked →
      Starts s root ((s.setStatus root .linking).setDfsIndex root 0,
        { frames := [⟨root, (s.entries root).requests⟩], stack := [root], index := 1 })
  | linked : s.Linked root → Starts s root (s, {})

/-- What changes while a walk waits. Modules that are not linked stay as they are, and all do if nothing is
evaluated. -/
structure Idles (calm : Prop) (s s' : Store) : Prop extends s.Skirts s' where
  ascends : s.Ascends s'
  spares : ∀ x, ¬s.Linked x → s'.status? x = s.status? x
  rests : calm → ∀ x, s'.status? x = s.status? x

theorem Idles.refl (calm : Prop) (s : Store) : s.Idles calm s :=
  ⟨.refl s, .refl s, fun _ _ ↦ rfl, fun _ _ ↦ rfl⟩

/-- What becomes of a walk, and of the store. -/
inductive Travels (β : ModuleId → Option ThrownError) (calm : Prop) (s : Store) (w : LinkWalk) :
    Store × LinkWalk → Prop where
  /-- It waits. -/
  | beside {s' : Store} : s.Idles calm s' → Travels β calm s w (s', w)
  /-- The names of a module are resolved, and the steps of its body begin. -/
  | environment {s' : Store} {m : ModuleId} {rest : List LinkFrame} : w.frames = ⟨m, []⟩ :: rest →
      s.initializeEnvironment m = (.ok (), s') → Travels β calm s w (s', w)
  | absent {m : ModuleId} {q : Request} {requests : List Request} {rest : List LinkFrame} :
      w.frames = ⟨m, q :: requests⟩ :: rest → s.imported? m q = none →
      Travels β calm s w (s, { w with frames := ⟨m, requests⟩ :: rest })
  | enter {m d : ModuleId} {q : Request} {requests : List Request} {rest : List LinkFrame} :
      w.frames = ⟨m, q :: requests⟩ :: rest → s.imported? m q = some d →
      s.status? d = some .unlinked →
      Travels β calm s w ((s.setStatus d .linking).setDfsIndex d w.index,
        { frames := ⟨d, (s.entries d).requests⟩ :: ⟨m, requests⟩ :: rest
          stack := d :: w.stack
          index := w.index + 1 })
  | meet {m d : ModuleId} {q : Request} {requests : List Request} {rest : List LinkFrame} :
      w.frames = ⟨m, q :: requests⟩ :: rest → s.imported? m q = some d →
      s.status? d ≠ some .unlinked →
      Travels β calm s w (LinkWalk.leave s m d, { w with frames := ⟨m, requests⟩ :: rest })
  /-- The steps of a body have come to their end. -/
  | conclude {m : ModuleId} {rest : List LinkFrame} : w.frames = ⟨m, []⟩ :: rest →
      s.verdict? β m = none → Travels β calm s w (LinkWalk.conclude s { w with frames := rest } m)

/-- How a walk ends. -/
inductive Ends (β : ModuleId → Option ThrownError) (s : Store) (w : LinkWalk) :
    Store × Result → Prop where
  | done : w.frames = [] → Ends β s w (s, .done)
  /-- There is something to complain of in a module, or its body has thrown. -/
  | failed {s' : Store} {m : ModuleId} {rest : List LinkFrame} {e : ErrorId} :
      w.frames = ⟨m, []⟩ :: rest → EcmaModules.Level s s' → s.verdict? β m = some (s'.error e) →
      Ends β s w (s'.unlink w.stack, .completion (.error e))

end Store

namespace Machine

variable {M : Machine}

/-- The machine is in the middle of a call that links; the walk is the only one. -/
inductive Calling (M : Machine) : LinkWalk → Prop where
  | walks {w : LinkWalk} : M.control = .run (.linking w) → M.frames = [] → Calling M w
  | waits (fs : List Frame) {m : ModuleId} {w : LinkWalk} : M.frames = fs ++ [.setUp m w] →
      M.linkWalks = [{ w with frames := ⟨m, []⟩ :: w.frames }] →
      Calling M { w with frames := ⟨m, []⟩ :: w.frames }

theorem Calling.linkWalks (h : M.Calling w) : M.linkWalks = [w] := by
  cases h with
  | walks hcontrol hframes =>
    rw [Machine.linkWalks, current, hcontrol, hframes]
    rfl
  | waits _ _ hw => exact hw

theorem Calling.result? (h : M.Calling w) : M.result? = none := by
  obtain ⟨s, control, fs⟩ := M
  cases h with
  | walks hcontrol _ =>
    obtain rfl : control = _ := hcontrol
    rfl
  | waits _ hframes _ =>
    obtain rfl : fs = _ := hframes
    rcases control with t | r
    · rfl
    · rename_i fs' _ _ _
      cases fs' <;> rfl

theorem Calling.alone (h : M.Calling w) (hi : M.Interlinked) (hw : M.Interwoven) (hv : M.Vetted) :
    w.Alone M.store := by
  have hlinking := hi.linking
  have hlinkage := hi.upward.linkage
  rw [← M.map_linkWalks] at hlinkage
  rw [h.linkWalks] at hlinking hlinkage
  have hwoven := hw w (h.linkWalks ▸ List.mem_cons_self)
  exact ⟨hlinking, hlinkage, hwoven, hi.charted.charts.filed, hi.charted.charts.rounded, hv.linked⟩

theorem exists_frames_apply (fs : List Frame) (x : Store × Next) :
    ∃ pushed, (apply fs x).frames = pushed ++ fs := by
  obtain ⟨s, n⟩ := x
  cases n with
  | call t f => exact ⟨[f], rfl⟩
  | _ => exact ⟨[], rfl⟩

/-- The walk itself takes a step. -/
theorem Calling.walk (hcontrol : M.control = .run (.linking w)) (hframes : M.frames = []) :
    (∃ w', M.step.Calling w' ∧ M.store.Travels β calm w (M.step.store, w')) ∨
      ∃ r, M.step.result? = some r ∧ M.store.Ends β w (M.step.store, r) := by
  have hnext : M.next? = some ((w.advance M.store).2.next (w.advance M.store).1) := by
    obtain ⟨s, control, fs⟩ := M
    obtain rfl : control = _ := hcontrol
    rfl
  have hrest : M.rest = [] := by
    obtain ⟨s, control, fs⟩ := M
    obtain rfl : fs = _ := hframes
    obtain rfl : control = _ := hcontrol
    rfl
  have hadvances := w.advances M.store
  rw [step_of_next? hnext, hrest]
  generalize w.advance M.store = out at hadvances
  cases hadvances with
  | done hdone => exact .inr ⟨_, rfl, .done hdone⟩
  | @environment s' m rest hm hinit =>
    have hw : ({ w with frames := ⟨m, []⟩ :: rest } : LinkWalk) = w := by rw [← hm]
    refine .inl ⟨w, ?_, .environment hm hinit⟩
    have hcalling : (apply [] (LinkStep.next s' (.setUp m { w with frames := rest }))).Calling
        { w with frames := ⟨m, []⟩ :: rest } :=
      .waits [] (m := m) (w := { w with frames := rest }) rfl rfl
    rwa [hw] at hcalling
  | @broken s' m rest e hm hinit =>
    have hsetsUp := M.store.initializeEnvironment_setsUp m
    have hsteady := (M.store.initializeEnvironment_furnishing m).level
    rw [hinit] at hsetsUp hsteady
    cases hsetsUp with
    | refused hcomplaint =>
      refine .inr ⟨_, rfl, .failed hm hsteady ?_⟩
      rw [Store.verdict?, hcomplaint, Option.some_or]
  | absent hm hq => exact .inl ⟨_, .walks rfl rfl, .absent hm hq⟩
  | enter hm hq hd => exact .inl ⟨_, .walks rfl rfl, .enter hm hq hd⟩
  | meet hm hq hd => exact .inl ⟨_, .walks rfl rfl, .meet hm hq hd⟩

/-- One step of the call. -/
theorem Calling.step (hc : M.Calling w) (h : M.Interlinked) (hv : M.Vetted) (hin : M.Inward)
    (hplain : calm → M.Plain) (hP : M.LinksAlone M.step) (hβ : M.Behaves β) :
    (∃ w', M.step.Calling w' ∧ M.store.Travels β calm w (M.step.store, w')) ∨
      ∃ r, M.step.result? = some r ∧ M.store.Ends β w (M.step.store, r) := by
  cases hc with
  | walks hcontrol hframes => exact Calling.walk hcontrol hframes
  | @waits fs m w hframes hwalks =>
    rcases hnext : M.next? with _ | x
    · rw [step_of_next?_eq_none hnext]
      exact .inl ⟨_, .waits fs hframes hwalks, .beside (.refl _ _)⟩
    -- nothing else links, since there is only one walk
    have hone : M.current.linkWalks ++ fs.flatMap Frame.linkWalks = [] := by
      have hall := hwalks
      rw [Machine.linkWalks, hframes, List.flatMap_append, ← List.append_assoc] at hall
      exact List.append_left_eq_self.1 hall
    cases h.proceeds hP.apart hnext with
    | link hcontrol _ => exact absurd (hwalks.symm.trans (hP.link _ hcontrol)) (List.cons_ne_nil _ _)
    | walk hcontrol _ =>
      rw [current, hcontrol] at hone
      exact absurd hone (List.cons_ne_nil _ _)
    | @setUp r m' w' fs' _ hcontrol hframes' hresumes =>
      rcases fs with _ | ⟨f, fs⟩
      · obtain ⟨hf, rfl⟩ := List.cons.inj (hframes'.symm.trans hframes)
        obtain ⟨rfl, rfl⟩ := Frame.setUp.inj hf
        have hbehaves := hβ r m' w' [] hcontrol hframes'
        have hnone := (hv.setUps m' w' (hframes' ▸ List.mem_cons_self)).complaint
        have hrest : M.rest = [] := by
          obtain ⟨s, control, fs⟩ := M
          obtain rfl : control = _ := hcontrol
          obtain rfl : fs = _ := hframes'
          rfl
        rw [step_of_next? hnext, hrest]
        cases hresumes with
        | done hr =>
          refine .inl ⟨_, .walks rfl rfl, .conclude (w := { w' with frames := _ :: w'.frames }) rfl ?_⟩
          rw [Store.verdict?, hnone, Option.none_or, ← hbehaves, Store.thrown?, hr]
        | @failed e hr =>
          refine .inr ⟨_, rfl, .failed rfl (Aside.refl M.store).steady.toLevel ?_⟩
          rw [Store.verdict?, hnone, Option.none_or, ← hbehaves, Store.thrown?, hr]
      · obtain ⟨rfl, -⟩ := List.cons.inj (hframes'.symm.trans hframes)
        exact absurd (List.append_eq_nil_iff.1 hone).2 (List.cons_ne_nil _ _)
    | @beside x hskirts hascends hn hsame =>
      obtain ⟨fs', hrest⟩ : ∃ fs', M.rest = fs' ++ [.setUp m w] := by
        rw [hwalks] at hsame
        obtain ⟨s, control, frames⟩ := M
        obtain rfl : frames = _ := hframes
        rcases control with t | r
        · exact ⟨fs, rfl⟩
        · rcases fs with _ | ⟨f, fs⟩
          · exact absurd hsame (List.cons_ne_nil _ _)
          · exact ⟨fs, rfl⟩
      obtain ⟨pushed, hpushed⟩ := exists_frames_apply M.rest x
      have hwalks' : M.step.linkWalks = M.linkWalks := by
        rw [step_of_next? hnext, linkWalks_apply, hn, List.nil_append, hsame]
      have hstore : M.step.store = x.1 := by rw [step_of_next? hnext, store_apply]
      refine .inl ⟨_, .waits (pushed ++ fs') ?_ (hwalks'.trans hwalks), ?_⟩
      · rw [step_of_next? hnext, hpushed, hrest, List.append_assoc]
      · have hlink : ∀ m, M.control ≠ .run (.link m) := fun m hm ↦
          absurd (hwalks.symm.trans (hP.link m hm)) (List.cons_ne_nil _ _)
        have hlinks : ¬M.links := by
          rintro (⟨u, hu⟩ | ⟨r, m', u, fs', hr, hf⟩)
          · rw [current, hu] at hone
            exact absurd hone (List.cons_ne_nil _ _)
          · -- the walk itself would go on
            have hwalks' := linkWalks_of_setUp hr hf
            have hrest' : M.rest = fs' := by
              obtain ⟨s, control, frames⟩ := M
              obtain rfl : control = _ := hr
              obtain rfl : frames = _ := hf
              rfl
            rw [hrest', hwalks'] at hsame
            exact List.cons_ne_self _ _ hsame
        refine .beside ⟨hstore ▸ hskirts, hstore ▸ hascends, fun x hx ↦ ?_, fun hcalm x ↦ ?_⟩
        · exact h.spares hP.apart hin hlink hlinks hx
        · exact ((hplain hcalm).standsAside (by simp [hnext]) hlink hlinks).status hin x

end Machine

/-- The walk is through with a module. -/
theorem LinkWalk.Alone.concludes {rest : List LinkFrame} (h : w.Alone s)
    (hframes : w.frames = ⟨m, []⟩ :: rest) :
    Concludes s (conclude s { w with frames := rest } m).1 w
      (conclude s { w with frames := rest } m).2 := by
  have hw : ({ w with frames := ⟨m, []⟩ :: rest } : LinkWalk) = w := by rw [← hframes]
  have htidy : Tidy s { w with frames := ⟨m, []⟩ :: rest } :=
    hw ▸ h.linking.tidy w List.mem_cons_self
  have hlinkage : Linkage s [({ w with frames := ⟨m, []⟩ :: rest } : LinkWalk).tour] :=
    hw ▸ h.linkage
  have hconcludes := Tidy.conclude (w := { w with frames := rest }) (L := []) htidy hlinkage
  exact ⟨hconcludes.tidy, hconcludes.subset, hconcludes.points, hconcludes.closed, hconcludes.status⟩

/-! ## The course of a call -/

namespace Store

/-- A walk goes on, by itself, in a graph that was loaded before. -/
structure Goes (β : ModuleId → Option ThrownError) (calm : Prop) (s₀ : Store) (x y : Store × LinkWalk) :
    Prop where
  alone : x.2.Alone x.1
  echoes : s₀.Echoes x.1
  travels : x.1.Travels β calm x.2 y

/-- What comes of a call for a module to be linked that is not refused. -/
structure Links (β : ModuleId → Option ThrownError) (calm : Prop) (s : Store) (root : ModuleId)
    (out : Store × Result) : Prop where
  course : ∃ x y : Store × LinkWalk, s.Starts root x ∧ Relation.ReflTransGen (s.Goes β calm) x y ∧
    y.2.Alone y.1 ∧ s.Echoes y.1 ∧ y.1.Ends β y.2 out

/-- In the call, the module is linked alone, and bodies behave as told. -/
def LinksAs (s : Store) (β : ModuleId → Option ThrownError) (root : ModuleId) : Prop :=
  ∀ i, (Machine.step^[i] (.start s (.link root))).LinksAlone
      (Machine.step^[i] (.start s (.link root))).step ∧
    (Machine.step^[i] (.start s (.link root))).Behaves β

/-- In the call nothing is evaluated. -/
def LinksOnly (s : Store) (root : ModuleId) : Prop :=
  ∀ i, ¬(Machine.step^[i] (.start s (.link root))).Evaluates

theorem LinksOnly.plain (h : s.LinksOnly root) (i : ℕ) :
    (Machine.step^[i] (.start s (.link root))).Plain := by
  induction i with
  | zero => exact ⟨by rintro _ ⟨⟩; rfl, by rintro _ ⟨⟩⟩
  | succ i ih =>
    have hnot := h (i + 1)
    rw [Function.iterate_succ_apply'] at hnot ⊢
    exact ih.step.resolve_right hnot

theorem LinksAs.turns (h : s.LinksAs β root) (i : ℕ) :
    Turns Machine.LinksApart (.idle s) (.busy (.link root) (Machine.step^[i] (.start s (.link root)))) := by
  induction i with
  | zero => exact .single (.call (.link root) rfl)
  | succ i ih =>
    rw [Function.iterate_succ_apply']
    exact ih.tail (.step (h i).1.apart)

theorem LinksAs.inward (h : s.LinksAs β root) (hi : (State.idle s).Interlinked) (i : ℕ) :
    (Machine.step^[i] (.start s (.link root))).Inward := by
  induction i with
  | zero => exact ⟨rfl, by rintro _ ⟨⟩⟩
  | succ i ih =>
    have hinterlinked : (Machine.step^[i] (.start s (.link root))).Interlinked := hi.turns (h.turns i)
    rw [Function.iterate_succ_apply']
    exact ih.keep hinterlinked.upward.linkage

/-- As long as the call goes on there is a walk, which has come that far. -/
theorem LinksAs.course (h : s.LinksAs β root) (hi : (State.idle s).Interlinked)
    (hv : (State.idle s).Vetted) (hroot : s.Old root) (i : ℕ) :
    (∃ x w, s.Starts root x ∧ (Machine.step^[i + 1] (.start s (.link root))).Calling w ∧
        Relation.ReflTransGen (s.Goes β (s.LinksOnly root)) x ((Machine.step^[i + 1] (.start s (.link root))).store, w)) ∨
      ∃ r, (Machine.step^[i + 1] (.start s (.link root))).result? = some r ∧
        s.Links β (s.LinksOnly root) root ((Machine.step^[i + 1] (.start s (.link root))).store, r) := by
  induction i with
  | zero =>
    have hbegins := Task.link_begins s root
    rw [Function.iterate_one]
    have hstep : (Machine.start s (.link root)).step = Machine.apply [] (Task.advance s (.link root)) := rfl
    rw [hstep]
    generalize Task.advance s (.link root) = out at hbegins
    cases hbegins with
    | refused message hrefused =>
      refine absurd hrefused (not_or.2 ⟨hroot, ?_⟩)
      exact hi.2.2.2.not_linking root
    | enter hs => exact .inl ⟨_, _, .enter hs, .walks rfl rfl, .refl⟩
    | linked hs => exact .inl ⟨_, _, .linked hs, .walks rfl rfl, .refl⟩
  | succ i ih =>
    have hturns := h.turns (i + 1)
    have hinterlinked : (Machine.step^[i + 1] (.start s (.link root))).Interlinked := hi.turns hturns
    have hvetted : (Machine.step^[i + 1] (.start s (.link root))).Vetted := hv.turns hi hturns
    have hinterwoven : (Machine.step^[i + 1] (.start s (.link root))).Interwoven :=
      State.Interwoven.turns hi hturns
    have hinward := h.inward hi (i + 1)
    have hplain : s.LinksOnly root → (Machine.step^[i + 1] (.start s (.link root))).Plain := fun h ↦
      h.plain (i + 1)
    have hechoes : s.Echoes (Machine.step^[i + 1] (.start s (.link root))).store :=
      State.Charted.turns_echoes hi.1 (hturns.mono fun _ _ ↦ Machine.LinksApart.fair)
    obtain ⟨halone, hbehaves⟩ := h (i + 1)
    rw [Function.iterate_succ_apply']
    generalize Machine.step^[i + 1] (.start s (.link root)) = M at *
    rcases ih with ⟨x, w, hstarts, hcalling, hcourse⟩ | ⟨r, hr, hlinks⟩
    · have hw := hcalling.alone hinterlinked hinterwoven hvetted
      rcases hcalling.step hinterlinked hvetted hinward hplain halone hbehaves with
        ⟨w', hcalling', htravels⟩ | ⟨r, hr, hends⟩
      · exact .inl ⟨x, w', hstarts, hcalling', hcourse.tail ⟨hw, hechoes, htravels⟩⟩
      · exact .inr ⟨r, hr, ⟨x, _, hstarts, hcourse, hw, hechoes, hends⟩⟩
    · rw [Machine.step_of_result? hr]
      exact .inr ⟨r, hr, hlinks⟩

/-- The call comes to an end. -/
theorem LinksAs.ends (h : s.LinksAs β root) (hi : (State.idle s).Interlinked)
    (hv : (State.idle s).Vetted) (hroot : s.Old root) :
    ∃ n r, (Machine.step^[n] (.start s (.link root))).result? = some r ∧
      s.Links β (s.LinksOnly root) root ((Machine.step^[n] (.start s (.link root))).store, r) := by
  have hinterlinked : ∀ i, (Machine.step^[i] (.start s (.link root))).Interlinked := fun i ↦
    hi.turns (h.turns i)
  obtain ⟨k, hk⟩ := (hinterlinked 0).upward.halts rfl
  obtain ⟨r, hr⟩ := Option.isSome_iff_exists.1 <| hk fun i _ ↦ by
    rw [Function.iterate_succ_apply']
    exact (hinterlinked i).asserts (h i).1.apart
  rcases k with _ | k
  · contradiction
  rcases h.course hi hv hroot k with ⟨x, w, -, hcalling, -⟩ | ⟨r', hr', hlinks⟩
  · exact nomatch hcalling.result?.symm.trans hr
  · exact ⟨k + 1, r', hr', hlinks⟩

end Store

/-! ## What a walk comes to -/

namespace Store

theorem Echoes.requires (h : s.Echoes s') (hr : s.Rounded) (hm : s.Old m) :
    s'.Requires m d ↔ s.Requires m d :=
  requires_congr (h.entries m) (fun q hq ↦ by
    obtain ⟨d, hd, -⟩ := hr m hm q hq
    rw [hd, h.grows m q d hd]) d

theorem Rounded.old_of_leads (h : s.Rounded) (hm : s.Old m)
    (hx : Relation.ReflTransGen s.Requires m x) : s.Old x := by
  induction hx with
  | refl => exact hm
  | tail _ hd ih => exact h.requires ih hd

theorem LinkClosed.leads (h : s.LinkClosed) (hm : s.Linked m)
    (hx : Relation.ReflTransGen s.Requires m x) : s.Linked x := by
  induction hx with
  | refl => exact hm
  | tail _ hd ih => exact h _ _ ih hd

/-- What a module leads to when it has been loaded, it led to before. -/
theorem Echoes.leads (h : s.Echoes s') (hr : s.Rounded) (hm : s.Old m) :
    Relation.ReflTransGen s'.Requires m x ↔ Relation.ReflTransGen s.Requires m x := by
  refine ⟨fun hx ↦ ?_, fun hx ↦ ?_⟩
  · induction hx with
    | refl => exact .refl
    | tail _ hd ih => exact ih.tail ((h.requires hr (hr.old_of_leads hm ih)).1 hd)
  · induction hx with
    | refl => exact .refl
    | tail hx hd ih => exact ih.tail ((h.requires hr (hr.old_of_leads hm hx)).2 hd)

/-- The walk has come to modules that its root leads to, and is not through with the root before that is
linked. -/
structure Explores (s₀ : Store) (root : ModuleId) (x : Store × LinkWalk) : Prop where
  leads : ∀ m ∈ x.2.stack, Relation.ReflTransGen s₀.Requires root m
  root : root ∈ x.2.stack ∨ x.1.Linked root

theorem Starts.explores {x : Store × LinkWalk} (h : s.Starts root x) : s.Explores root x := by
  cases h with
  | enter _ =>
    refine ⟨fun m hm ↦ ?_, .inl List.mem_cons_self⟩
    rw [List.mem_singleton.1 hm]
  | linked hs => exact ⟨nofun, .inr hs⟩

theorem Explores.goes {x y : Store × LinkWalk} (h : s₀.Explores root x) (hr : s₀.Rounded)
    (hroot : s₀.Old root) (hgoes : s₀.Goes β calm x y) : s₀.Explores root y := by
  obtain ⟨s, w⟩ := x
  obtain ⟨halone, hechoes, htravels⟩ := hgoes
  have htidy := halone.linking.tidy w List.mem_cons_self
  have hsame : ∀ {s' : Store} {w' : LinkWalk}, w'.stack = w.stack → (∀ x, s.Linked x → s'.Linked x) →
      s₀.Explores root (s', w') := fun hstack hlinked ↦
    ⟨fun m hm ↦ h.leads m (hstack ▸ hm), h.root.imp (hstack ▸ ·) (hlinked root)⟩
  cases htravels with
  | beside hidles => exact hsame rfl fun x ↦ (hidles.linked x).2
  | @environment s' m rest _ hinit =>
    have hstatus := (s.initializeEnvironment_furnishing m).level.status
    rw [hinit] at hstatus
    exact hsame rfl fun x hx ↦ hx.congr (hstatus x)
  | absent _ _ => exact hsame rfl fun x ↦ id
  | @enter m d q requests rest hframes hq hd =>
    have hm := htidy.mem (f := ⟨m, q :: requests⟩) (hframes ▸ List.mem_cons_self)
    have hrequires := (hechoes.requires hr (hr.old_of_leads hroot (h.leads m hm))).1
      (htidy.requires hframes hq)
    refine ⟨List.forall_mem_cons.2 ⟨(h.leads m hm).tail hrequires, h.leads⟩, ?_⟩
    exact h.root.imp (List.mem_cons_of_mem d) (LinkWalk.linked_enter hd w.index root).2
  | @meet m d q requests rest _ _ _ =>
    exact hsame rfl fun x hx ↦ hx.congr (LinkWalk.status?_leave s m d x)
  | @conclude m rest hframes _ =>
    have hconcludes := halone.concludes hframes
    refine ⟨fun x hx ↦ h.leads x (hconcludes.subset hx), or_iff_not_imp_left.2 fun hout ↦ ?_⟩
    rw [linked_iff, hconcludes.status]
    split
    · exact fun status hs ↦ (Option.some.inj hs).le
    · next hnot =>
      refine linked_iff.1 (h.root.resolve_left fun hmem ↦ hnot ⟨hmem, hout⟩)

theorem Explores.course {x y : Store × LinkWalk} (h : s₀.Explores root x) (hr : s₀.Rounded)
    (hroot : s₀.Old root) (hcourse : Relation.ReflTransGen (s₀.Goes β calm) x y) : s₀.Explores root y := by
  induction hcourse with
  | refl => exact h
  | tail _ hgoes ih => exact ih.goes hr hroot hgoes

/-- A walk that ends well has linked all that the root leads to. -/
theorem Explores.linked (h : s₀.Explores root (s, w)) (hw : w.Alone s) (hframes : w.frames = [])
    (hechoes : s₀.Echoes s) (hr : s₀.Rounded) (hroot : s₀.Old root)
    (hx : Relation.ReflTransGen s₀.Requires root x) : s.Linked x := by
  have hempty : w.stack = [] := by
    have hstacked := (hw.linking.tidy w List.mem_cons_self).stacked
    rw [hframes] at hstacked
    generalize w.stack = R at hstacked
    cases hstacked
    rfl
  have hlinked : s.Linked root := h.root.resolve_left fun hmem ↦ absurd (hempty ▸ hmem) List.not_mem_nil
  exact hw.linking.closed.leads hlinked ((hechoes.leads hr hroot).2 hx)

end Store

end EcmaModules
