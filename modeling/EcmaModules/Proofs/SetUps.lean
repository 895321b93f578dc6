import EcmaModules.Proofs.Verdict

/-!
# When environments are set up

When a walk that links is through with the requests of a module, it has the body of the module called, for
the part of the environment that is the body's own. What happens to environments in a run is written down,
the latest first: that the body of a module was called, that the call has come back without an error, and
that linking has failed and modules were taken back.

Modules that are linked have been set up, and so have those on the stack of a walk that the walk is through
with. The others on the stack, which are on the path, have not been called yet, but for the one whose body is
being called. So a module that is called has not been called before, unless it was taken back since.

## What has been set up before

When a module is called, its requests stand for modules that are linked or on the stack, and so do those of
whatever the walk is through with. What is linked leads to linked modules only. So a way from the module stays
among these as long as it does not come to another module on the path, and such a module belongs to the
component of the one that is called.
-/

namespace EcmaModules

/-! ## Histories -/

/-- What happens to the environments of modules. -/
inductive SetUp where
  /-- The body of the module is called. -/
  | called (m : ModuleId)
  /-- The call has come back, without an error. -/
  | succeeded (m : ModuleId)
  /-- Linking has failed, and the modules are taken back. -/
  | takenBack (ms : List ModuleId)
deriving DecidableEq

/-- The body of the module has been called, and the module has not been taken back since. -/
def wasCalled (m : ModuleId) : List SetUp → Prop
  | [] => False
  | .called d :: U => d = m ∨ wasCalled m U
  | .succeeded d :: U => d = m ∨ wasCalled m U
  | .takenBack ms :: U => m ∉ ms ∧ wasCalled m U

/-- A call of the body of the module has come back without an error, and the module has not been taken back
since. -/
def isSetUp (m : ModuleId) : List SetUp → Prop
  | [] => False
  | .called _ :: U => isSetUp m U
  | .succeeded d :: U => d = m ∨ isSetUp m U
  | .takenBack ms :: U => m ∉ ms ∧ isSetUp m U

theorem wasCalled_of_isSetUp {m : ModuleId} {U : List SetUp} (h : isSetUp m U) : wasCalled m U := by
  induction U with
  | nil => exact h
  | cons e U ih =>
    cases e with
    | called d => exact .inr (ih h)
    | succeeded d => exact h.imp_right ih
    | takenBack ms => exact h.imp_right ih

/-- No body is called twice unless its module is taken back in between. -/
def CallsApart (U : List SetUp) : Prop :=
  ∀ m V V', U = V ++ .called m :: V' → ¬wasCalled m V'

theorem CallsApart.cons {e : SetUp} {U : List SetUp} (h : CallsApart U)
    (he : ∀ m, e = .called m → ¬wasCalled m U) : CallsApart (e :: U) := by
  intro m V V' heq
  rcases V with _ | ⟨e', V⟩
  · obtain ⟨rfl, rfl⟩ := List.cons.inj heq
    exact he m rfl
  · exact h m V V' (List.cons.inj heq).2

namespace LinkWalk

/-- The modules on the path. -/
def path (w : LinkWalk) : List ModuleId := w.frames.map LinkFrame.module

/-- The walk is through with a module that stays on the stack. -/
def Keeps (w : LinkWalk) (x : ModuleId) : Prop := x ∈ w.stack ∧ x ∉ w.path

end LinkWalk

/-- What a history tells, with the walks that link, and the modules on their paths that have not been
called. -/
structure Store.Tracks (s : Store) (L : List LinkWalk) (W : List ModuleId) (U : List SetUp) : Prop where
  linked : ∀ x, (s.status? x).isSome → s.Linked x → isSetUp x U
  kept : ∀ w ∈ L, ∀ x, w.Keeps x → isSetUp x U
  waiting : ∀ x ∈ W, ¬wasCalled x U
  loose : ∀ x, ¬s.Linked x → s.status? x ≠ some .linking → ¬wasCalled x U

namespace Store.Tracks

variable {s s' : Store} {L L' : List LinkWalk} {W W' : List ModuleId} {U : List SetUp} {w w' : LinkWalk}
  {m d : ModuleId}

/-- Nothing is entered, and nothing becomes linked. -/
theorem keep (h : s.Tracks L W U) (hsome : ∀ x, (s'.status? x).isSome → (s.status? x).isSome)
    (hlinked : ∀ x, s'.Linked x ↔ s.Linked x)
    (hlinking : ∀ x, s.status? x = some .linking → s'.status? x = some .linking)
    (hL : ∀ w' ∈ L', ∀ x, w'.Keeps x → ∃ w ∈ L, w.Keeps x) (hW : W' ⊆ W) : s'.Tracks L' W' U where
  linked x hx hl := h.linked x (hsome x hx) ((hlinked x).1 hl)
  kept w' hw' x hx := by
    obtain ⟨w, hw, hx⟩ := hL w' hw' x hx
    exact h.kept w hw x hx
  waiting x hx := h.waiting x (hW hx)
  loose x hx hstatus := h.loose x (mt (hlinked x).2 hx) (mt (hlinking x) hstatus)

theorem keep_status (h : s.Tracks L W U) (hstatus : ∀ x, s'.status? x = s.status? x)
    (hL : ∀ w' ∈ L', ∀ x, w'.Keeps x → ∃ w ∈ L, w.Keeps x) (hW : W' ⊆ W) : s'.Tracks L' W' U :=
  h.keep (fun x hx ↦ hstatus x ▸ hx) (fun x ↦ by rw [linked_iff, hstatus, linked_iff])
    (fun x hx ↦ (hstatus x).trans hx) hL hW

/-- A module is entered. -/
theorem enter (h : s.Tracks L W U) (hd : s.status? d = some .unlinked) (i : ℕ)
    (hL : ∀ w' ∈ L', ∀ x, w'.Keeps x → ∃ w ∈ L, w.Keeps x) (hW : ∀ x ∈ W', x = d ∨ x ∈ W) :
    ((s.setStatus d .linking).setDfsIndex d i).Tracks L' W' U where
  linked x hx hl := by
    refine h.linked x ?_ ((LinkWalk.linked_enter hd i x).1 hl)
    by_cases hxd : x = d
    · rw [hxd, hd]
      rfl
    · rwa [LinkWalk.status?_enter_of_ne hxd] at hx
  kept w' hw' x hx := by
    obtain ⟨w, hw, hx⟩ := hL w' hw' x hx
    exact h.kept w hw x hx
  waiting x hx := by
    rcases hW x hx with rfl | hx
    · refine h.loose x (fun hl ↦ absurd (linked_iff.1 hl _ hd) (by decide)) ?_
      rw [hd]
      simp
    · exact h.waiting x hx
  loose x hx hstatus := by
    have hxd : x ≠ d := by
      rintro rfl
      exact hstatus (LinkWalk.status?_enter hd i)
    rw [LinkWalk.status?_enter_of_ne hxd] at hstatus
    exact h.loose x (mt (LinkWalk.linked_enter hd i x).2 hx) hstatus

/-- The body of a module is called. -/
theorem call (h : s.Tracks L W U) (hstatus : ∀ x, s'.status? x = s.status? x)
    (hm : s.status? m = some .linking)
    (hL : ∀ w' ∈ L', ∀ x, w'.Keeps x → ∃ w ∈ L, w.Keeps x) (hW : ∀ x ∈ W', x ∈ W ∧ x ≠ m) :
    s'.Tracks L' W' (.called m :: U) := by
  have hkept : s'.Tracks L' W' U := h.keep_status hstatus hL fun x hx ↦ (hW x hx).1
  refine ⟨hkept.linked, hkept.kept, fun x hx ↦ ?_, fun x hx hlinking ↦ ?_⟩
  · rintro (rfl | hcalled)
    · exact (hW m hx).2 rfl
    · exact hkept.waiting x hx hcalled
  · rintro (rfl | hcalled)
    · exact hlinking ((hstatus m).trans hm)
    · exact hkept.loose x hx hlinking hcalled

/-- A walk fails. -/
theorem fail {S : List ModuleId} (h : s.Tracks L W U) (hS : ∀ x ∈ S, s.status? x = some .linking)
    (hL : ∀ w' ∈ L', w' ∈ L ∧ ∀ x ∈ w'.stack, x ∉ S) (hW : W' ⊆ W) :
    (s.unlink S).Tracks L' W' (.takenBack S :: U) where
  linked x hx hl := by
    have hstatus := status?_unlink hS x
    have hout : x ∉ S := fun hmem ↦ by
      rw [if_pos hmem] at hstatus
      exact absurd (linked_iff.1 hl _ hstatus) (by decide)
    rw [if_neg hout] at hstatus
    exact ⟨hout, h.linked x (hstatus ▸ hx) (hl.congr hstatus.symm)⟩
  kept w' hw' x hx := ⟨(hL w' hw').2 x hx.1, h.kept w' (hL w' hw').1 x hx⟩
  waiting x hx hcalled := h.waiting x (hW hx) hcalled.2
  loose x hx hlinking := fun ⟨hout, hcalled⟩ ↦ by
    have hstatus := status?_unlink hS x
    rw [if_neg hout] at hstatus
    exact h.loose x (fun hl ↦ hx (hl.congr hstatus)) (fun hl ↦ hlinking (hstatus.trans hl)) hcalled

/-- A walk is through with a module. -/
theorem conclude (h : s.Tracks ({ w with frames := ⟨m, []⟩ :: w.frames } :: L) W U)
    (hc : LinkWalk.Concludes s s' w w')
    (hframes : w'.frames = w.frames) (hlinking : s.status? m = some .linking)
    (hout : m ∉ W) : s'.Tracks (w' :: L) W (.succeeded m :: U) := by
  have hthrough : ∀ x ∈ w.stack, x ∉ w.path → isSetUp x (.succeeded m :: U) := fun x hx hout ↦ by
    by_cases hxm : x = m
    · exact .inl hxm.symm
    · refine .inr (h.kept _ List.mem_cons_self x ⟨hx, fun hmem ↦ ?_⟩)
      exact (List.mem_cons.1 hmem).elim hxm hout
  have hstatus := hc.status
  refine ⟨fun x hx hl ↦ ?_, List.forall_mem_cons.2 ⟨fun x hx ↦ ?_, fun u hu x hx ↦ ?_⟩,
    fun x hx ↦ ?_, fun x hx hnot ↦ ?_⟩
  · by_cases hpop : x ∈ w.stack ∧ x ∉ w'.stack
    · -- what is on the path is still on the stack
      refine hthrough x hpop.1 fun hmem ↦ hpop.2 ?_
      obtain ⟨f, hf, rfl⟩ := List.mem_map.1 hmem
      exact hc.tidy.mem (hframes ▸ hf)
    · have hsame : s'.status? x = s.status? x := (hstatus x).trans (if_neg hpop)
      exact .inr (h.linked x (hsame ▸ hx) (hl.congr hsame.symm))
  · obtain ⟨hmem, hout⟩ := hx
    refine hthrough x (hc.subset hmem) ?_
    rwa [LinkWalk.path, hframes] at hout
  · exact .inr (h.kept u (List.mem_cons_of_mem _ hu) x hx)
  · rintro (rfl | hcalled)
    · exact hout hx
    · exact h.waiting x hx hcalled
  · by_cases hpop : x ∈ w.stack ∧ x ∉ w'.stack
    · refine absurd (linked_iff.2 fun status hx' ↦ ?_) hx
      rw [(hstatus x).trans (if_pos hpop)] at hx'
      exact (Option.some.inj hx').le
    · have hsame : s'.status? x = s.status? x := (hstatus x).trans (if_neg hpop)
      rintro (rfl | hcalled)
      · exact hnot (hsame.trans hlinking)
      · exact h.loose x (fun hl ↦ hx (hl.congr hsame)) (fun hl ↦ hnot (hsame.trans hl)) hcalled

end Store.Tracks

/-! ## Steps of the machine -/

/-- What a step of a walk that links does to environments. -/
def LinkStep.setUps : LinkStep → List SetUp
  | .setUp m _ => [.called m]
  | .failed _ stack => [.takenBack stack]
  | _ => []

/-- What the next step does to environments. -/
def Machine.setUps (M : Machine) : List SetUp :=
  match M.control, M.frames with
  | .run (.linking w), _ => (w.advance M.store).2.setUps
  | .give r, .setUp m w :: _ =>
    match r.toCompletion with
    | .ok () => [.succeeded m]
    | .error _ => [.takenBack w.stack]
  | _, _ => []

/-- The modules on the path of the walk that a task is. -/
def Task.waiting : Task → List ModuleId
  | .linking w => w.path
  | _ => []

/-- The modules on the path of the walk in a frame, below the one whose body is being called. -/
def Frame.waiting : Frame → List ModuleId
  | .setUp _ w => w.path
  | _ => []

/-- The modules on the paths of walks whose bodies are not being called, in what comes next. -/
def Next.waiting : Next → List ModuleId
  | .goto t => t.waiting
  | .call t f => t.waiting ++ f.waiting
  | .give _ => []

theorem Next.waiting_eq_nil {n : Next} (h : n.linkWalks = []) : n.waiting = [] := by
  have htask : ∀ {t : Task}, t.linkWalks = [] → t.waiting = [] := fun {t} ht ↦ by
    cases t <;> first | rfl | contradiction
  have hframe : ∀ {f : Frame}, f.linkWalks = [] → f.waiting = [] := fun {f} hf ↦ by
    cases f <;> first | rfl | contradiction
  cases n with
  | goto t => exact htask h
  | call t f =>
    obtain ⟨ht, hf⟩ := List.append_eq_nil_iff.1 h
    rw [waiting, htask ht, hframe hf]
    rfl
  | give r => rfl

/-- What waits further down is on the stack of a walk there. -/
theorem Frame.exists_mem_stack {s : Store} {fs : List Frame} {x : ModuleId}
    (h : Linkage s ((fs.flatMap Frame.linkWalks).map LinkWalk.tour)) (hx : x ∈ fs.flatMap Frame.waiting) :
    ∃ u ∈ fs.flatMap Frame.linkWalks, x ∈ u.stack := by
  obtain ⟨f, hf, hx⟩ := List.mem_flatMap.1 hx
  cases f with
  | setUp m w =>
    have hmem : ({ w with frames := ⟨m, []⟩ :: w.frames } : LinkWalk) ∈ fs.flatMap Frame.linkWalks :=
      List.mem_flatMap.2 ⟨_, hf, List.mem_cons_self⟩
    exact ⟨_, hmem, (h.path _ (List.mem_map_of_mem hmem)).subset (List.mem_cons_of_mem m hx)⟩
  | _ => exact absurd hx List.not_mem_nil

namespace Machine

variable {M M' : Machine} {U : List SetUp} {s : Store} {w : LinkWalk} {fs : List Frame}

/-- The modules on the paths of walks that have not been called. -/
def waiting (M : Machine) : List ModuleId := M.current.waiting ++ M.frames.flatMap Frame.waiting

theorem waiting_apply (fs : List Frame) (x : Store × Next) :
    (apply fs x).waiting = x.2.waiting ++ fs.flatMap Frame.waiting := by
  obtain ⟨s, n⟩ := x
  cases n with
  | call t f => exact (List.append_assoc _ _ _).symm
  | _ => rfl

/-- What a history tells of the walks that link. -/
def Tracks (M : Machine) (U : List SetUp) : Prop := M.store.Tracks M.linkWalks M.waiting U

theorem Tracks.next {x : Store × Next} {V : List SetUp} (hnext : M.next? = some x)
    (h : x.1.Tracks (x.2.linkWalks ++ M.rest.flatMap Frame.linkWalks)
      (x.2.waiting ++ M.rest.flatMap Frame.waiting) V) : M.step.Tracks V := by
  unfold Tracks
  rwa [step_of_next? hnext, linkWalks_apply, waiting_apply, store_apply]

/-- A walk takes a step. -/
theorem Tracks.walk (h : (Machine.mk s (.run (.linking w)) fs).Tracks U)
    (hi : (Machine.mk s (.run (.linking w)) fs).Interlinked) :
    (Machine.mk s (.run (.linking w)) fs).step.Tracks
      ((Machine.mk s (.run (.linking w)) fs).setUps ++ U) := by
  have hlinking : Linking s (w :: fs.flatMap Frame.linkWalks) := hi.linking
  have hlinkage : Linkage s ((w :: fs.flatMap Frame.linkWalks).map LinkWalk.tour) :=
    Machine.map_linkWalks (Machine.mk s (.run (.linking w)) fs) ▸ hi.upward.linkage
  have hstack : ∀ x ∈ w.stack, s.status? x = some .linking := hlinkage.linking w.tour List.mem_cons_self
  have hpath : w.path.Sublist w.stack := hlinkage.path w.tour List.mem_cons_self
  replace h : s.Tracks (w :: fs.flatMap Frame.linkWalks) (w.path ++ fs.flatMap Frame.waiting) U := h
  refine .next (x := (w.advance s).2.next (w.advance s).1) rfl ?_
  change Store.Tracks _ (_ ++ fs.flatMap Frame.linkWalks) (_ ++ fs.flatMap Frame.waiting)
    ((w.advance s).2.setUps ++ U)
  have hadvances := w.advances s
  generalize w.advance s = out at hadvances
  -- the walks and what waits on their paths, when the walk has not come to its end
  have hgo : ∀ {w' : LinkWalk}, (∀ x, w'.Keeps x → w.Keeps x) →
      ∀ u ∈ w' :: fs.flatMap Frame.linkWalks, ∀ x, u.Keeps x →
        ∃ v ∈ w :: fs.flatMap Frame.linkWalks, v.Keeps x := fun hkeeps u hu x hx ↦ by
    rcases List.mem_cons.1 hu with rfl | hu
    · exact ⟨w, List.mem_cons_self, hkeeps x hx⟩
    · exact ⟨u, List.mem_cons_of_mem w hu, hx⟩
  have hbelow : ∀ u ∈ fs.flatMap Frame.linkWalks, ∀ x ∈ u.stack, x ∉ w.stack := fun u hu x hx ↦
    (hlinkage.beneath hu hx).2
  cases hadvances with
  | done hframes =>
    exact h.keep_status (fun _ ↦ rfl) (fun u hu x hx ↦ ⟨u, List.mem_cons_of_mem w hu, hx⟩)
      (List.subset_append_right _ _)
  | @environment s' m rest hframes hinit =>
    have hstatus := (s.initializeEnvironment_furnishing m).level.status
    rw [hinit] at hstatus
    have hpath' : w.path = m :: rest.map LinkFrame.module := by rw [LinkWalk.path, hframes]; rfl
    have hnodup := hpath.nodup (List.nodup_append.1 hlinkage.nodup).1
    rw [hpath'] at hpath hnodup
    have hm : m ∈ w.stack := hpath.subset List.mem_cons_self
    refine h.call hstatus (hstack m hm) (hgo fun x hx ↦ ⟨hx.1, hpath' ▸ hx.2⟩) fun x hx ↦ ?_
    rcases List.mem_append.1 hx with hrest | hfs
    · exact ⟨List.mem_append_left _ (hpath' ▸ List.mem_cons_of_mem m hrest),
        fun heq ↦ (List.nodup_cons.1 hnodup).1 (heq ▸ hrest)⟩
    · obtain ⟨u, hu, hxu⟩ := Frame.exists_mem_stack hlinkage.tail hfs
      exact ⟨List.mem_append_right _ hfs, fun heq ↦ hbelow u hu x hxu (heq ▸ hm)⟩
  | @broken s' m rest e hframes hinit =>
    have hstatus := (s.initializeEnvironment_furnishing m).level.status
    rw [hinit] at hstatus
    have hsame : s'.Tracks (w :: fs.flatMap Frame.linkWalks) (w.path ++ fs.flatMap Frame.waiting) U :=
      h.keep_status hstatus (fun u hu x hx ↦ ⟨u, hu, hx⟩) (List.Subset.refl _)
    exact hsame.fail (fun x hx ↦ (hstatus x).trans (hstack x hx))
      (fun u hu ↦ ⟨List.mem_cons_of_mem w hu, hbelow u hu⟩) (List.subset_append_right _ _)
  | @absent m q requests rest hframes hq =>
    have hpath' : w.path = m :: rest.map LinkFrame.module := by rw [LinkWalk.path, hframes]; rfl
    refine h.keep_status (fun _ ↦ rfl) (hgo fun x hx ↦ ⟨hx.1, hpath' ▸ hx.2⟩) ?_
    rw [hpath']
    exact List.Subset.refl _
  | @enter m d q requests rest hframes hq hd =>
    have hpath' : w.path = m :: rest.map LinkFrame.module := by rw [LinkWalk.path, hframes]; rfl
    refine h.enter hd w.index (hgo fun x hx ↦ ?_) fun x hx ↦ ?_
    · obtain ⟨hmem, hout⟩ := hx
      have hout : x ∉ d :: w.path := hpath' ▸ hout
      obtain ⟨hne, hout⟩ := not_or.1 (mt List.mem_cons.2 hout)
      exact ⟨(List.mem_cons.1 hmem).resolve_left hne, hout⟩
    · have hx : x ∈ d :: w.path ++ fs.flatMap Frame.waiting := hpath' ▸ hx
      exact List.mem_cons.1 hx
  | @meet m d q requests rest hframes hq hd =>
    have hpath' : w.path = m :: rest.map LinkFrame.module := by rw [LinkWalk.path, hframes]; rfl
    refine h.keep_status (LinkWalk.status?_leave s m d) (hgo fun x hx ↦ ⟨hx.1, hpath' ▸ hx.2⟩) ?_
    rw [hpath']
    exact List.Subset.refl _

/-- The call of a body has come back. -/
theorem Tracks.back {r : Result} {m : ModuleId} (h : (Machine.mk s (.give r) (.setUp m w :: fs)).Tracks U)
    (hi : (Machine.mk s (.give r) (.setUp m w :: fs)).Interlinked) :
    (Machine.mk s (.give r) (.setUp m w :: fs)).step.Tracks
      ((Machine.mk s (.give r) (.setUp m w :: fs)).setUps ++ U) := by
  have hlinking : Linking s ({ w with frames := ⟨m, []⟩ :: w.frames } :: fs.flatMap Frame.linkWalks) :=
    hi.linking
  have hlinkage : Linkage s
      (({ w with frames := ⟨m, []⟩ :: w.frames } :: fs.flatMap Frame.linkWalks).map LinkWalk.tour) :=
    Machine.map_linkWalks (Machine.mk s (.give r) (.setUp m w :: fs)) ▸ hi.upward.linkage
  have hstack : ∀ x ∈ w.stack, s.status? x = some .linking := hlinkage.linking _ List.mem_cons_self
  replace h : s.Tracks ({ w with frames := ⟨m, []⟩ :: w.frames } :: fs.flatMap Frame.linkWalks)
      (w.path ++ fs.flatMap Frame.waiting) U := h
  refine .next (x := Frame.resume s r (.setUp m w)) rfl ?_
  change Store.Tracks _ (_ ++ fs.flatMap Frame.linkWalks) (_ ++ fs.flatMap Frame.waiting) _
  have hresumes := Frame.setUp_resumes s r m w
  generalize Frame.resume s r (.setUp m w) = x at hresumes
  cases hresumes with
  | done hr =>
    simp only [setUps, hr]
    have hpath : (m :: w.path).Sublist w.stack := hlinkage.path _ List.mem_cons_self
    have hnodup := hpath.nodup (List.nodup_append.1 hlinkage.nodup).1
    have hm : m ∈ w.stack := hpath.subset List.mem_cons_self
    refine h.conclude ((hlinking.tidy _ List.mem_cons_self).conclude hlinkage) rfl (hstack m hm) fun hmem ↦ ?_
    rcases List.mem_append.1 hmem with hrest | hfs
    · exact (List.nodup_cons.1 hnodup).1 hrest
    · obtain ⟨u, hu, hmu⟩ := Frame.exists_mem_stack hlinkage.tail hfs
      exact (hlinkage.beneath hu hmu).2 hm
  | failed hr =>
    simp only [setUps, hr]
    exact h.fail hstack (fun u hu ↦ ⟨List.mem_cons_of_mem _ hu, fun x hx ↦ (hlinkage.beneath hu hx).2⟩)
      (List.subset_append_right _ _)

/-- One step. -/
theorem Tracks.step (h : M.Tracks U) (hi : M.Interlinked) (hP : M.LinksApart M') :
    M.step.Tracks (M.setUps ++ U) := by
  obtain ⟨s, control, fs⟩ := M
  by_cases hwalk : ∃ w, control = .run (.linking w)
  · obtain ⟨w, rfl⟩ := hwalk
    exact h.walk hi
  by_cases hback : ∃ r m w fs', control = .give r ∧ fs = .setUp m w :: fs'
  · obtain ⟨r, m, w, fs', rfl, rfl⟩ := hback
    exact h.back hi
  have hnone : (Machine.mk s control fs).setUps = [] := by
    unfold setUps
    split
    · next hc => exact absurd ⟨_, hc⟩ hwalk
    · next hc hf => exact absurd ⟨_, _, _, _, hc, hf⟩ hback
    · rfl
  rw [hnone, List.nil_append]
  rcases hnext : (Machine.mk s control fs).next? with _ | x
  · rwa [step_of_next?_eq_none hnext]
  cases hi.proceeds hP hnext with
  | @link m x hcontrol hbegins =>
    obtain rfl : control = _ := hcontrol
    replace h : s.Tracks (fs.flatMap Frame.linkWalks) (fs.flatMap Frame.waiting) U := h
    refine .next hnext ?_
    change Store.Tracks _ (_ ++ fs.flatMap Frame.linkWalks) (_ ++ fs.flatMap Frame.waiting) U
    have hadd : ∀ {w : LinkWalk}, (∀ x, ¬w.Keeps x) → ∀ u ∈ w :: fs.flatMap Frame.linkWalks, ∀ x,
        u.Keeps x → ∃ v ∈ fs.flatMap Frame.linkWalks, v.Keeps x := fun hnone u hu x hx ↦ by
      rcases List.mem_cons.1 hu with rfl | hu
      · exact absurd hx (hnone x)
      · exact ⟨u, hu, hx⟩
    cases hbegins with
    | refused message _ =>
      exact h.keep_status (Aside.throw s .typeError message).steady.status (fun u hu x hx ↦ ⟨u, hu, hx⟩)
        (List.Subset.refl _)
    | enter hm =>
      refine h.enter hm 0 (hadd fun x hx ↦ hx.2 ?_) fun x hx ↦ List.mem_cons.1 hx
      exact hx.1
    | linked _ =>
      exact h.keep_status (fun _ ↦ rfl) (hadd fun x hx ↦ absurd hx.1 List.not_mem_nil)
        (List.Subset.refl _)
  | walk hcontrol _ => exact absurd ⟨_, hcontrol⟩ hwalk
  | setUp hcontrol hframes _ => exact absurd ⟨_, _, _, _, hcontrol, hframes⟩ hback
  | beside hskirts hascends hwalks hsame =>
    have hwaiting : (Machine.mk s control fs).waiting =
        (Machine.mk s control fs).rest.flatMap Frame.waiting := by
      rcases control with t | r
      · have hnil : t.waiting = [] := by
          cases t with
          | linking w => exact absurd ⟨w, rfl⟩ hwalk
          | _ => rfl
        change t.waiting ++ fs.flatMap Frame.waiting = fs.flatMap Frame.waiting
        rw [hnil, List.nil_append]
      · rcases fs with _ | ⟨f, fs⟩
        · rfl
        · have hnil : f.waiting = [] := by
            cases f with
            | setUp m w => exact absurd ⟨r, m, w, fs, rfl, rfl⟩ hback
            | _ => rfl
          change f.waiting ++ fs.flatMap Frame.waiting = fs.flatMap Frame.waiting
          rw [hnil, List.nil_append]
    refine .next hnext ?_
    rw [hwalks, Next.waiting_eq_nil hwalks, List.nil_append, List.nil_append, ← hsame, ← hwaiting]
    refine Store.Tracks.keep h (fun x hx ↦ ?_) hskirts.linked (fun x hx ↦ (hskirts.linking x).2 hx)
      (fun u hu x hx ↦ ⟨u, hu, hx⟩) (List.Subset.refl _)
    obtain ⟨status, hstatus⟩ := Option.isSome_iff_exists.1 hx
    obtain ⟨r', hr', -⟩ := Option.map_eq_some_iff.1 hstatus
    obtain ⟨r, hr, -⟩ := Store.Each.before hascends hr'
    rw [Store.status?, hr]
    rfl

end Machine

/-! ## Runs -/

/-- What the next step does to environments. -/
def State.setUps : State → List SetUp
  | .idle _ => []
  | .busy _ M => M.setUps

/-- The states that runs from a store lead to, with what has happened to environments. -/
inductive SetUps (P : Machine → Machine → Prop) (s₀ : Store) : State → List SetUp → Prop where
  | start : SetUps P s₀ (.idle s₀) []
  | turn {st st' : State} {U : List SetUp} :
      SetUps P s₀ st U → Turn P st st' → SetUps P s₀ st' (st.setUps ++ U)

theorem SetUps.turns {P : Machine → Machine → Prop} {s₀ : Store} {st : State} {U : List SetUp}
    (h : SetUps P s₀ st U) : Turns P (.idle s₀) st := by
  induction h with
  | start => exact .refl
  | turn _ ht ih => exact ih.tail ht

/-- A run that is less restricted. -/
theorem SetUps.mono {P Q : Machine → Machine → Prop} {s₀ : Store} {st : State} {U : List SetUp}
    (hPQ : ∀ M M', P M M' → Q M M') (h : SetUps P s₀ st U) : SetUps Q s₀ st U := by
  induction h with
  | start => exact .start
  | turn _ ht ih => exact ih.turn (ht.mono hPQ)

namespace State

variable {st st' : State} {U : List SetUp}

/-- What a history tells of the walks that link. -/
def Tracks (st : State) (U : List SetUp) : Prop :=
  match st with
  | .idle s => s.Tracks [] [] U
  | .busy _ M => M.Tracks U

/-- A change while nothing is being linked. -/
theorem Tracks.idle {s s' : Store} (h : (State.idle s).Tracks U)
    (hstatus : ∀ x, s'.status? x = s.status? x) : s'.Tracks [] [] U :=
  Store.Tracks.keep_status h hstatus nofun (List.Subset.refl _)

theorem Tracks.begin {s : Store} {a : Act} (h : (State.idle s).Tracks U) (ha : a.begin s = some st) :
    st.Tracks U := by
  cases a with
  | namespaceOf m phase =>
    obtain rfl := Option.some.inj ha
    exact h.idle (s.namespaceOf_apart m phase).steady.status
  | settle label c =>
    obtain ⟨p, -, rfl⟩ := Option.map_eq_some_iff.1 ha
    exact h.idle (Aside.settle s p c).steady.status
  | job =>
    simp only [Act.begin] at ha
    split at ha
    · contradiction
    · obtain rfl := Option.some.inj ha
      exact h.idle fun _ ↦ rfl
  | _ =>
    obtain rfl := Option.some.inj ha
    exact h

theorem Tracks.turn (h : st.Tracks U) (hi : st.Interlinked) (ht : Turn Machine.LinksApart st st') :
    st'.Tracks (st.setUps ++ U) := by
  have hquestion : ∀ {M : Machine} {q : HostQuestion}, M.question? = some q → M.setUps = [] := fun hq ↦ by
    unfold Machine.setUps
    rw [Machine.control_of_question? hq]
  cases ht with
  | call a ha => exact h.begin ha
  | step hP => exact Machine.Tracks.step h hi hP
  | @consult a M q s hq hs =>
    rw [setUps, hquestion hq]
    exact Store.Tracks.keep_status h hs.aside.steady.status (fun u hu x hx ↦ ⟨u, hu, hx⟩)
      (List.Subset.refl _)
  | @answer a M q as hq =>
    rw [setUps, hquestion hq]
    obtain ⟨s, control, fs⟩ := M
    obtain rfl : control = _ := Machine.control_of_question? hq
    exact h
  | @finish a M r hr =>
    obtain ⟨s, control, fs⟩ := M
    obtain ⟨rfl, rfl⟩ := Machine.end_of_result? hr
    exact h

end State

namespace Machine

variable {M : Machine} {m d : ModuleId} {U : List SetUp}

/-- A walk that has the body of a module called is through with the requests of the module. -/
theorem walk_of_called (h : .called m ∈ M.setUps) :
    ∃ w rest, M.control = .run (.linking w) ∧ w.frames = ⟨m, []⟩ :: rest := by
  unfold setUps at h
  split at h
  · next w hcontrol =>
    refine ⟨w, ?_⟩
    have hadvances := w.advances M.store
    generalize w.advance M.store = out at hadvances h
    cases hadvances with
    | environment hframes _ =>
      cases List.mem_singleton.1 h
      exact ⟨_, hcontrol, hframes⟩
    | broken _ _ => exact absurd (List.mem_singleton.1 h) (by simp)
    | _ => exact absurd h List.not_mem_nil
  · split at h <;> exact absurd (List.mem_singleton.1 h) (by simp)
  · exact absurd h List.not_mem_nil

end Machine

/-- What a module requests with which the walk is through is linked, or on the stack. -/
theorem Store.Stacked.linked_or_mem {s : Store} {S R : List ModuleId} {F : List LinkFrame} {x d : ModuleId}
    (h : s.Stacked S F R) (hx : x ∈ R) (hout : x ∉ F.map LinkFrame.module) (hd : s.Requires x d) :
    s.Linked d ∨ d ∈ S := by
  induction h with
  | nil => exact absurd hx List.not_mem_nil
  | @cons f frames below seen above hbelow hrequests hseen habove _ _ ih =>
    rw [List.map_cons] at hout
    obtain ⟨hne, hout⟩ := not_or.1 (mt List.mem_cons.2 hout)
    rcases List.mem_append.1 hx with hx | hx
    · exact (habove x hx d hd).imp_right And.left
    · exact ih ((List.mem_cons.1 hx).resolve_left hne) hout

/-- A way from a module goes on from another one, which does not belong to its component or has been set
up. -/
def Store.Passes (s : Store) (U : List SetUp) (m x y : ModuleId) : Prop :=
  s.Requires x y ∧ (x = m ∨ isSetUp x U ∨ ¬Mutual s.Requires m x)

namespace Machine

variable {M M' : Machine} {m d x : ModuleId} {U : List SetUp}

/-- What is come to on such ways, when a module is called, is linked, or on the stack of the walk. -/
theorem Tracks.linked_or_mem (h : M.Tracks U) (hi : M.Interlinked) (hw : M.Interwoven) {w : LinkWalk}
    {rest : List LinkFrame} (hcontrol : M.control = .run (.linking w)) (hframes : w.frames = ⟨m, []⟩ :: rest)
    (hx : Relation.ReflTransGen (M.store.Passes U m) m x) :
    M.store.Linked x ∨ x ∈ w.stack ∧ Mutual M.store.Requires m x := by
  obtain ⟨s, control, fs⟩ := M
  obtain rfl : control = _ := hcontrol
  have hlinking : Linking s (w :: fs.flatMap Frame.linkWalks) := hi.linking
  have htidy := hlinking.tidy w List.mem_cons_self
  have hpath : w.path = m :: rest.map LinkFrame.module := by rw [LinkWalk.path, hframes]; rfl
  have hwoven : w.Woven s := hw w List.mem_cons_self
  have hwaiting : ∀ x ∈ w.path, ¬wasCalled x U := fun x hx ↦ h.waiting x (List.mem_append_left _ hx)
  unfold LinkWalk.Woven at hwoven
  rw [show w.frames.map LinkFrame.module = _ from hpath] at hwoven
  have hleads : ∀ {x}, Relation.ReflTransGen (s.Passes U m) m x → Relation.ReflTransGen s.Requires m x :=
    fun hx ↦ Relation.ReflTransGen.mono (fun _ _ h ↦ h.1) _ _ hx
  have hmutual : ∀ {x}, Relation.ReflTransGen (s.Passes U m) m x → x ∈ w.stack →
      Mutual s.Requires m x := fun hx hmem ↦ ⟨hleads hx, hwoven.leads_to_head hmem⟩
  induction hx with
  | refl =>
    have hm := htidy.mem (f := ⟨m, []⟩) (hframes ▸ List.mem_cons_self)
    exact .inr ⟨hm, .refl, .refl⟩
  | @tail y z hy hyz ih =>
    obtain ⟨hrequires, hpass⟩ := hyz
    suffices hz : s.Linked z ∨ z ∈ w.stack from
      hz.imp_right fun hmem ↦ ⟨hmem, hmutual (hy.tail ⟨hrequires, hpass⟩) hmem⟩
    rcases ih with hlinked | ⟨hmem, hcomponent⟩
    · exact .inl (hlinking.closed y z hlinked hrequires)
    have hstacked := htidy.stacked
    rw [hframes] at hstacked
    obtain ⟨above, below, -, -, hmet, -⟩ := LinkWalk.stacked_head hstacked
    rcases hpass with rfl | hsetUp | hother
    · exact (hmet y (List.mem_append_right _ List.mem_cons_self) z hrequires).imp_right And.left
    · -- what has been set up is not on the path any more
      refine htidy.stacked.linked_or_mem hmem (fun hon ↦ ?_) hrequires
      exact hwaiting y hon (wasCalled_of_isSetUp hsetUp)
    · exact absurd hcomponent hother

/-- When a module is called, what such ways lead to outside of its component has been set up. -/
theorem Tracks.isSetUp (h : M.Tracks U) (hi : M.Interlinked) (hw : M.Interwoven)
    (hm : .called m ∈ M.setUps) (hd : Relation.ReflTransGen (M.store.Passes U m) m d)
    (hsource : (M.store.source? d).isSome) (hother : ¬Mutual M.store.Requires m d) : isSetUp d U := by
  obtain ⟨w, rest, hcontrol, hframes⟩ := walk_of_called hm
  rcases h.linked_or_mem hi hw hcontrol hframes hd with hlinked | ⟨-, hmutual⟩
  · exact h.linked d (by rwa [Store.status?, Option.isSome_map]) hlinked
  · exact absurd hmutual hother

end Machine

namespace Machine

/-- Goes on for a number of steps like `Machine.serve`, writing down what happens to environments. -/
def tend : ℕ → Machine × List SetUp → Machine × List SetUp
  | 0, x => x
  | n + 1, (M, U) => tend n (M.serve 1, M.setUps ++ U)

theorem setUps_of_result? {M : Machine} {r : Result} (h : M.result? = some r) : M.setUps = [] := by
  obtain ⟨hcontrol, hframes⟩ := end_of_result? h
  rw [setUps, hcontrol, hframes]

end Machine

namespace SetUps

variable {P : Machine → Machine → Prop} {check : Machine → Bool} {s₀ : Store} {a : Act} {n : ℕ}

theorem tend {x : Machine × List SetUp} (h : SetUps P s₀ (.busy a x.1) x.2)
    (hcheck : ∀ M M', check M = true → P M M') (hall : ∀ i < n, check (Machine.tend i x).1 = true) :
    SetUps P s₀ (.busy a (Machine.tend n x).1) (Machine.tend n x).2 := by
  induction n generalizing x with
  | zero => exact h
  | succ n ih =>
    obtain ⟨M, U⟩ := x
    refine ih (x := (M.serve 1, M.setUps ++ U)) (h.turn ?_) fun i hi ↦ hall (i + 1) (Nat.succ_lt_succ hi)
    simp only [Machine.serve]
    split
    · next hq => exact .answer _ hq
    · next hq => exact .answer _ hq
    · exact .step (hcheck _ _ (hall 0 n.succ_pos))

theorem begin {s : Store} {st : State} {U : List SetUp} (h : SetUps P s₀ (.idle s) U)
    (hbegin : a.begin s = some st) : SetUps P s₀ st U :=
  h.turn (.call a hbegin)

theorem finish {x : Machine × List SetUp} (h : SetUps P s₀ (.busy a x.1) x.2)
    (hresult : x.1.result?.isSome) : SetUps P s₀ (.idle x.1.store) x.2 := by
  obtain ⟨r, hr⟩ := Option.isSome_iff_exists.1 hresult
  have hturn := h.turn (.finish hr)
  rwa [State.setUps, Machine.setUps_of_result? hr] at hturn

end SetUps

end EcmaModules
