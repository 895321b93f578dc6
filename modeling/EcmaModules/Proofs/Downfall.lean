import EcmaModules.Proofs.Ledger
import EcmaModules.Proofs.Rejection

/-!
# What failing changes

When a module fails, its record changes, and so do those of the modules that hang on it: those that
wait for it, or for one of these, as far as they are not over. Their promises are rejected, and the
reactions to these promises are put into the queue. Nothing else changes.

Which modules fail is known from `Spreads`; what is missing is the frame. Modules are marked on the
way down and promises are rejected on the way up, so the two alternate. But to reject a promise reads
no module, and to mark a module touches no promise. So the change comes apart: there is one list of
modules such that just these are marked, and that the rest of the store is as if their promises had
been rejected one after the other (`Store.Falls`).

Neither part depends on how deep the traversal may go. That it goes deep enough is the last thing to
prove: with any bound above the number of modules, the outcome is the same.
-/

namespace EcmaModules

/-! ## Marking -/

/-- The module after it has failed. Without source text it cannot fail. -/
def Module.failed (e : ErrorId) (M : Module) : Module :=
  match M.content with
  | .sourceText r => { M with content := .sourceText (r.failed e) }
  | .synthetic _ => M

namespace Module

variable {e : ErrorId} {M : Module} {r : SourceText}

theorem failed_of_source (h : M.content = .sourceText r) :
    M.failed e = { M with content := .sourceText (r.failed e) } := by
  unfold failed
  rw [h]

@[simp] theorem failed_failed (e : ErrorId) (M : Module) : (M.failed e).failed e = M.failed e := by
  rcases M with ⟨_ | _, _, _, _, _, _⟩ <;> rfl

end Module

namespace Store

variable {e : ErrorId} {s s' s'' : Store} {m x : ModuleId} {p : PromiseId}

/-- The module has source text and is not over. -/
def Open (s : Store) (x : ModuleId) : Prop :=
  ∃ r, s.source? x = some r ∧ r.status ≠ .evaluated

/-- A module is not over, and is a given one or waits for a module that hangs on it. -/
inductive Hangs (s : Store) (m : ModuleId) : ModuleId → Prop where
  | self : s.Open m → s.Hangs m m
  | parent {z x : ModuleId} : s.Hangs m z → x ∈ s.parents z → s.Open x → s.Hangs m x

theorem Hangs.open (h : s.Hangs m x) : s.Open x := by
  cases h with
  | self h => exact h
  | parent _ _ h => exact h

theorem open_iff : s.Open x ↔ (s.source? x).isSome ∧ s.status? x ≠ some .evaluated := by
  unfold Open status?
  cases s.source? x <;> simp

theorem source?_eq_some {r : SourceText} :
    s.source? x = some r ↔ ∃ M, s.module? x = some M ∧ M.content = .sourceText r := by
  unfold source?
  rcases s.module? x with _ | ⟨_ | _, _, _, _, _, _⟩ <;> simp

theorem module?_markFailed (s : Store) (m : ModuleId) (e : ErrorId) (x : ModuleId) :
    (s.markFailed m e).module? x = if x = m then (s.module? x).map (·.failed e) else s.module? x :=
  module?_modifyModule s m _ x

/-- The store with other modules. -/
def withModules (s : Store) (ms : Array Module) : Store := { s with modules := ms }

@[simp] theorem withModules_self (s : Store) : s.withModules s.modules = s := rfl

@[simp] theorem withModules_withModules (s : Store) (ms ms' : Array Module) :
    (s.withModules ms).withModules ms' = s.withModules ms' := rfl

theorem withModules_markFailed (s : Store) (m : ModuleId) (e : ErrorId) (ms : Array Module) :
    (s.markFailed m e).withModules ms = s.withModules ms := rfl

/-- Settling a promise does not depend on the modules. -/
theorem settle_withModules (s : Store) (ms : Array Module) (p : PromiseId) (c : Completion) :
    (s.withModules ms).settle p c = (s.settle p c).withModules ms := by
  have hp : (s.withModules ms).promise? p = s.promise? p := rfl
  unfold settle
  rw [hp]
  split
  · unfold enqueue withModules
    split <;> rfl
  · rfl

theorem foldl_reject_withModules (ps : List PromiseId) (s : Store) (ms : Array Module) :
    ps.foldl (·.reject · e) (s.withModules ms) = (ps.foldl (·.reject · e) s).withModules ms := by
  induction ps generalizing s with
  | nil => rfl
  | cons p ps ih =>
    rw [List.foldl_cons, reject, settle_withModules]
    exact ih (s.reject p e)

/-! ## The change comes apart -/

/-- Some modules are marked, and their promises are rejected in order. -/
structure Falls (e : ErrorId) (xs : List ModuleId) (s s' : Store) : Prop where
  module? : ∀ x, s'.module? x = if x ∈ xs then (s.module? x).map (·.failed e) else s.module? x
  rest : s'.withModules s.modules = (xs.filterMap s.capability?).foldl (·.reject · e) s
  unmarked : ∀ x ∈ xs, s.status? x ≠ some .evaluated

theorem capability?_of_fails (h : Fails e s s') (x : ModuleId) :
    s'.capability? x = s.capability? x := by
  unfold capability?
  rcases h x with hx | ⟨r, hr, -, hx⟩
  · rw [hx]
  · rw [hr, hx]
    rfl

namespace Falls

variable {xs ys : List ModuleId}

theorem source? (h : Falls e xs s s') (x : ModuleId) :
    s'.source? x = if x ∈ xs then (s.source? x).map (·.failed e) else s.source? x := by
  by_cases hx : x ∈ xs
  · rw [if_pos hx, Store.source?, h.module?, if_pos hx, Store.source?]
    rcases s.module? x with _ | ⟨_ | _, _, _, _, _, _⟩ <;> rfl
  · rw [if_neg hx, Store.source?, h.module?, if_neg hx, Store.source?]

theorem fails (h : Falls e xs s s') : Fails e s s' := fun x ↦ by
  rw [h.source?]
  split
  · next hx =>
    rcases hr : s.source? x with _ | r
    · exact .inl rfl
    · refine .inr ⟨r, rfl, fun hs ↦ h.unmarked x hx ?_, rfl⟩
      rw [status?, hr, Option.map_some, hs]
  · exact .inl rfl

theorem nil (e : ErrorId) (s : Store) : Falls e [] s s where
  module? _ := by simp
  rest := rfl
  unmarked _ hx := absurd hx List.not_mem_nil

theorem append (h : Falls e xs s s') (h' : Falls e ys s' s'') : Falls e (xs ++ ys) s s'' where
  module? x := by
    rw [h'.module?, h.module?]
    by_cases hx : x ∈ xs <;> by_cases hy : x ∈ ys <;> simp [hx, hy, Function.comp_def]
  rest := by
    have hcapability : s'.capability? = s.capability? := funext (capability?_of_fails h.fails)
    calc s''.withModules s.modules
        = (s''.withModules s'.modules).withModules s.modules := rfl
      _ = (ys.filterMap s.capability?).foldl (·.reject · e) (s'.withModules s.modules) := by
        rw [h'.rest, hcapability, foldl_reject_withModules]
      _ = ((xs ++ ys).filterMap s.capability?).foldl (·.reject · e) s := by
        rw [h.rest, List.filterMap_append, List.foldl_append]
  unmarked x hx := by
    rcases List.mem_append.1 hx with hx | hx
    · exact h.unmarked x hx
    · exact fun hs ↦ h'.unmarked x hx (h.fails.evaluated hs)

/-- A module is marked on the way down, and its promise is rejected on the way up. -/
theorem enclose (hm : s.status? m ≠ some .evaluated) (h : Falls e xs (s.markFailed m e) s') :
    Falls e (xs ++ [m]) s (s'.rejectCapability m e) where
  module? x := by
    have hmodules : (s'.rejectCapability m e).module? x = s'.module? x := by
      rw [Store.module?, modules_rejectCapability, Store.module?]
    rw [hmodules, h.module?, module?_markFailed]
    by_cases hx : x ∈ xs <;> by_cases hxm : x = m <;> simp [hx, hxm, Function.comp_def]
  rest := by
    have hmark := fails_markFailed e hm
    have hcapability : (s.markFailed m e).capability? = s.capability? :=
      funext (capability?_of_fails hmark)
    have hlast : s'.capability? m = s.capability? m := by
      rw [capability?_of_fails h.fails, hcapability]
    have hrest : s'.withModules s.modules = (xs.filterMap s.capability?).foldl (·.reject · e) s :=
      calc s'.withModules s.modules
          = (s'.withModules (s.markFailed m e).modules).withModules s.modules := rfl
        _ = ((xs.filterMap s.capability?).foldl (·.reject · e) (s.markFailed m e)).withModules
              s.modules := by rw [h.rest, hcapability]
        _ = (xs.filterMap s.capability?).foldl (·.reject · e) s := by
          rw [← foldl_reject_withModules, withModules_markFailed, withModules_self]
    rw [List.filterMap_append, List.foldl_append, ← hrest, rejectCapability, hlast]
    rcases hp : s.capability? m with _ | p
    · rw [List.filterMap_cons_none hp]
      rfl
    · rw [List.filterMap_cons_some hp]
      exact (settle_withModules s' s.modules p (.error e)).symm
  unmarked x hx := by
    rcases List.mem_append.1 hx with hx | hx
    · exact fun hs ↦ h.unmarked x hx ((fails_markFailed e hm).evaluated hs)
    · rwa [List.mem_singleton.1 hx]

theorem foldl {f : Store → ModuleId → Store} (hf : ∀ s m, ∃ xs, Falls e xs s (f s m))
    (ms : List ModuleId) (s : Store) : ∃ xs, Falls e xs s (ms.foldl f s) := by
  induction ms generalizing s with
  | nil => exact ⟨[], .nil e s⟩
  | cons m ms ih =>
    obtain ⟨xs, hxs⟩ := hf s m
    obtain ⟨ys, hys⟩ := ih (f s m)
    exact ⟨xs ++ ys, hxs.append hys⟩

end Falls

theorem falls_rejectFrom (depth : Nat) (s : Store) (m : ModuleId) (e : ErrorId) :
    ∃ xs, Falls e xs s (s.rejectFrom depth m e) := by
  induction depth generalizing s m with
  | zero => exact ⟨[], .nil e s⟩
  | succ depth ih =>
    unfold rejectFrom
    split
    · exact ⟨[], .nil e s⟩
    · next hm =>
      obtain ⟨xs, hxs⟩ := Falls.foldl (fun s x ↦ ih s x) ((s.markFailed m e).parents m)
        (s.markFailed m e)
      exact ⟨xs ++ [m], hxs.enclose hm⟩

/-! ## Rejecting -/

/-- The promise has not been settled. -/
def Pending (s : Store) (p : PromiseId) : Prop := ∃ rs, s.promise? p = some (.pending rs)

/-- The jobs that come of rejecting the promise. -/
def rejectionJobs (s : Store) (e : ErrorId) (p : PromiseId) : List Job :=
  (s.reactions p).map fun r ↦ ⟨r, .error e⟩

/-- Just the given promises, which are pending, are rejected in order, and their reactions join the
queue. -/
structure Rejects (e : ErrorId) (ps : List PromiseId) (s s' : Store) : Prop where
  nodup : ps.Nodup
  pending : ∀ p ∈ ps, s.Pending p
  rejected : ∀ p ∈ ps, s'.promise? p = some (.rejected e)
  others : ∀ p ∉ ps, s'.promise? p = s.promise? p
  jobs : s'.jobs = s.jobs ++ if s.keepsJobs then ps.flatMap (s.rejectionJobs e) else []
  frame : s' = { s with promises := s'.promises, jobs := s'.jobs }

namespace Rejects

variable {ps : List PromiseId}

theorem nil (e : ErrorId) (s : Store) : Rejects e [] s s where
  nodup := List.nodup_nil
  pending := nofun
  rejected := nofun
  others _ _ := rfl
  jobs := by simp
  frame := rfl

/-- What is pending after one promise has been rejected. -/
theorem pending_reject {q : PromiseId} (hp : s.Pending p) :
    (s.reject p e).Pending q ↔ s.Pending q ∧ q ≠ p := by
  obtain ⟨rs, hrs⟩ := hp
  unfold Pending reject
  rw [promise?_settle hrs]
  by_cases hq : q = p <;> simp [hq, settledState]

theorem cons (hp : s.Pending p) (h : Rejects e ps (s.reject p e) s') :
    Rejects e (p :: ps) s s' := by
  obtain ⟨rs, hrs⟩ := id hp
  have hothers : ∀ q, q ≠ p → (s.reject p e).promise? q = s.promise? q := fun q hq ↦ by
    rw [reject, promise?_settle hrs, if_neg hq]
  have hnotMem : p ∉ ps := fun hmem ↦ (pending_reject hp |>.1 (h.pending p hmem)).2 rfl
  have hjobs : (s.reject p e).jobs = s.jobs ++ if s.keepsJobs then s.rejectionJobs e p else [] := by
    rw [reject, settle_pending _ hrs, jobs_enqueue, rejectionJobs, reactions, hrs]
    cases s.keepsJobs <;> simp
  have hkeeps : (s.reject p e).keepsJobs = s.keepsJobs := by
    rw [reject, settle_pending _ hrs, keepsJobs_enqueue]
  have hlater : ps.flatMap ((s.reject p e).rejectionJobs e) = ps.flatMap (s.rejectionJobs e) := by
    refine List.flatMap_congr fun q hq ↦ ?_
    rw [rejectionJobs, rejectionJobs, reactions_eq (hothers q fun heq ↦ hnotMem (heq ▸ hq))]
  refine ⟨List.nodup_cons.2 ⟨hnotMem, h.nodup⟩, ?_, ?_, fun q hq ↦ ?_, ?_, ?_⟩
  · exact List.forall_mem_cons.2 ⟨hp, fun q hq ↦ (pending_reject hp |>.1 (h.pending q hq)).1⟩
  · refine List.forall_mem_cons.2 ⟨?_, h.rejected⟩
    rw [h.others p hnotMem, reject, promise?_settle hrs, if_pos rfl]
    rfl
  · obtain ⟨hne, hq⟩ := not_or.1 (List.mem_cons.not.1 hq)
    rw [h.others q hq, hothers q hne]
  · rw [h.jobs, hjobs, hkeeps, hlater]
    cases s.keepsJobs <;> simp
  · have hframe : s.reject p e =
        { s with promises := (s.reject p e).promises, jobs := (s.reject p e).jobs } := by
      rw [reject, settle_pending _ hrs]
      unfold enqueue
      split <;> rfl
    have hframe' := h.frame
    rw [hframe] at hframe'
    exact hframe'

/-- Of some promises those that are pending are rejected. -/
theorem of_foldl (qs : List PromiseId) (s : Store) :
    ∃ ps, Rejects e ps s (qs.foldl (·.reject · e) s) ∧ ∀ p, p ∈ ps ↔ p ∈ qs ∧ s.Pending p := by
  induction qs generalizing s with
  | nil => exact ⟨[], .nil e s, by simp⟩
  | cons q qs ih =>
    obtain ⟨ps, hps, hmem⟩ := ih (s.reject q e)
    by_cases hq : s.Pending q
    · refine ⟨q :: ps, hps.cons hq, fun p ↦ ?_⟩
      rw [List.mem_cons, List.mem_cons, hmem, pending_reject hq]
      by_cases hp : p = q
      · simp [hp, hq]
      · simp [hp]
    · have hsame : s.reject q e = s := settle_of_not_pending _ fun rs hrs ↦ hq ⟨rs, hrs⟩
      rw [hsame] at hps hmem
      rw [List.foldl_cons, hsame]
      refine ⟨ps, hps, fun p ↦ ?_⟩
      rw [hmem, List.mem_cons]
      by_cases hp : p = q
      · simp [hp, hq]
      · simp [hp]

end Rejects

/-! ## The depth -/

theorem foldl_rejectFrom_congr {n d d' : Nat}
    (hdown : ∀ (s : Store) (m : ModuleId), s.Bounded n → s.Roomy d n → s.Roomy d' n →
      s.rejectFrom d m e = s.rejectFrom d' m e)
    (ms : List ModuleId) (s : Store) (hn : s.Bounded n) (hd : s.Roomy d n) (hd' : s.Roomy d' n) :
    ms.foldl (fun s x ↦ s.rejectFrom d x e) s = ms.foldl (fun s x ↦ s.rejectFrom d' x e) s := by
  induction ms generalizing s with
  | nil => rfl
  | cons m ms ih =>
    have hf := fails_rejectFrom d s m e
    rw [List.foldl_cons, List.foldl_cons, ← hdown s m hn hd hd']
    exact ih _ (hn.of_fails hf) (hd.of_fails hf) (hd'.of_fails hf)

/-- Two depths at which there is room make no difference. -/
theorem rejectFrom_congr {n : Nat} (d d' : Nat) (s : Store) (m : ModuleId) (hn : s.Bounded n)
    (hd : s.Roomy d n) (hd' : s.Roomy d' n) : s.rejectFrom d m e = s.rejectFrom d' m e := by
  induction d generalizing d' s m with
  | zero => exact absurd rfl (hd.ne_zero hn)
  | succ d ih =>
    obtain ⟨d', rfl⟩ := Nat.exists_eq_succ_of_ne_zero (hd'.ne_zero hn)
    unfold rejectFrom
    by_cases hs : s.status? m = some .evaluated
    · rw [if_pos hs, if_pos hs]
    rw [if_neg hs, if_neg hs]
    have hmark := fails_markFailed e hs
    rcases hsource : s.source? m with _ | r
    · -- there is nowhere to go down to
      have hnil : ((s.markFailed m e).source? m).map (·.asyncParents) = none := by
        rw [Option.map_eq_none_iff, ← Option.not_isSome_iff_eq_none, hmark.isSome, hsource]
        exact Bool.false_ne_true
      simp only [hnil, Option.getD_none, List.foldl_nil]
    · have hsome : (s.source? m).isSome := by simp [hsource]
      refine congrArg (rejectCapability · m e) ?_
      exact foldl_rejectFrom_congr (fun s m ↦ ih d' s m) _ _ (hn.of_fails hmark)
        (hd.markFailed e hsome hs) (hd'.markFailed e hsome hs)

/-- Above the number of modules there is room. -/
theorem rejectFrom_of_lt {depth : Nat} (h : s.modules.size < depth) (m : ModuleId) (e : ErrorId) :
    s.rejectFrom depth m e = s.rejectModule m e := by
  have hroom : ∀ d, s.modules.size < d → s.Roomy d s.modules.size := fun d hd ↦
    ⟨[], List.nodup_nil, nofun, by rw [List.length_nil]; omega⟩
  exact rejectFrom_congr _ _ s m (fun l hl hsome ↦ length_le_size hl hsome) (hroom depth h)
    (hroom _ (Nat.lt_succ_self _))

/-! ## The outcome -/

/-- The promise is pending, and is that of an evaluation started at a module that hangs on the given
one. -/
def HangsPromise (s : Store) (m : ModuleId) (p : PromiseId) : Prop :=
  s.Pending p ∧ ∃ x, s.Hangs m x ∧ s.capability? x = some p

namespace Falls

variable {xs : List ModuleId}

/-- The modules with source text that were marked are those that hang on the given one. -/
theorem mem_iff_hangs (h : Falls e xs s (s.rejectModule m e)) (hx : (s.source? x).isSome) :
    x ∈ xs ↔ s.Hangs m x := by
  have hspreads := spreads_rejectModule s m e
  have hmarked : ∀ y ∈ xs, (s.source? y).isSome →
      (s.rejectModule m e).status? y = some .evaluated := by
    intro y hy hsome
    obtain ⟨r, hr⟩ := Option.isSome_iff_exists.1 hsome
    rw [status?, h.source?, if_pos hy, hr]
    rfl
  have hover : ∀ y, s.Open y → (s.rejectModule m e).status? y = some .evaluated → y ∈ xs := by
    intro y hy hover
    by_contra hnot
    refine (open_iff.1 hy).2 ?_
    rw [← hover, status?, status?, h.source?, if_neg hnot]
  refine ⟨fun hmem ↦ ?_, fun hhangs ↦ ?_⟩
  · refine hspreads.within (fun y ↦ (s.source? y).isSome → s.Hangs m y) (fun y hy hs hsome ↦ ?_)
      (fun z y hz hy hs hsome ↦ ?_) x ⟨h.unmarked x hmem, hmarked x hmem hx⟩ hx
    · obtain rfl := List.mem_singleton.1 hy
      exact .self (open_iff.2 ⟨hsome, hs⟩)
    · have hz' : (s.source? z).isSome := by
        by_contra hnone
        rw [parents, Option.not_isSome_iff_eq_none.1 hnone] at hy
        exact absurd hy List.not_mem_nil
      exact .parent (hz hz') hy (open_iff.2 ⟨hsome, hs⟩)
  · clear hx
    induction hhangs with
    | self hm =>
      exact hover m hm (hspreads.settled m (List.mem_singleton.2 rfl) (open_iff.1 hm).1)
    | @parent z x hz hx hopen ih =>
      have hz' := open_iff.1 hz.open
      exact hover x hopen (hspreads.parents z ⟨hz'.2, hmarked z ih hz'.1⟩ x hx (open_iff.1 hopen).1)

/-- What becomes of the record of a module that hangs on the given one. -/
theorem record (h : Falls e xs s (s.rejectModule m e)) (hx : s.Hangs m x) :
    ∃ M r, s.module? x = some M ∧ M.content = .sourceText r ∧ r.status ≠ .evaluated ∧
      (s.rejectModule m e).module? x = some { M with content := .sourceText (r.failed e) } := by
  obtain ⟨r, hr, hs⟩ := hx.open
  obtain ⟨M, hM, hcontent⟩ := source?_eq_some.1 hr
  refine ⟨M, r, hM, hcontent, hs, ?_⟩
  rw [h.module?, if_pos ((h.mem_iff_hangs (by simp [hr])).2 hx), hM, Option.map_some,
    Module.failed_of_source hcontent]

theorem changed_iff (h : Falls e xs s (s.rejectModule m e)) :
    (s.rejectModule m e).module? x ≠ s.module? x ↔ s.Hangs m x := by
  refine ⟨fun hx ↦ ?_, fun hx heq ↦ ?_⟩
  · by_contra hnot
    refine hx ?_
    rw [h.module?]
    split
    · next hxmem =>
      -- a marked module that does not hang on the given one has no source text
      rcases hM : s.module? x with _ | M
      · rfl
      · rcases hcontent : M.content with r | r
        · have hsome : (s.source? x).isSome := by simp [source?_eq_some.2 ⟨M, hM, hcontent⟩]
          exact absurd ((h.mem_iff_hangs hsome).1 hxmem) hnot
        · rw [Option.map_some, Module.failed, hcontent]
    · rfl
  · obtain ⟨M, r, hM, hcontent, hs, hM'⟩ := h.record hx
    rw [hM', hM] at heq
    have hr : ModuleContent.sourceText (r.failed e) = .sourceText r :=
      (congrArg Module.content (Option.some.inj heq)).trans hcontent
    exact hs (congrArg SourceText.status (ModuleContent.sourceText.inj hr)).symm

theorem rejects (h : Falls e xs s (s.rejectModule m e)) :
    ∃ ps, Rejects e ps s ((s.rejectModule m e).withModules s.modules) ∧
      ∀ p, p ∈ ps ↔ s.HangsPromise m p := by
  obtain ⟨ps, hps, hpending⟩ := Rejects.of_foldl (xs.filterMap s.capability?) s (e := e)
  refine ⟨ps, h.rest ▸ hps, fun p ↦ ?_⟩
  rw [hpending, List.mem_filterMap, and_comm]
  refine and_congr_right fun _ ↦ exists_congr fun x ↦ and_congr_left fun hp ↦ ?_
  obtain ⟨r, hr, -⟩ := Option.bind_eq_some_iff.1 hp
  exact h.mem_iff_hangs (Option.isSome_of_mem hr)

end Falls

/-- Failing a module ends, whatever the bound on the depth is above the number of modules. If the module
is over, nothing changes. Otherwise just the records of the modules that hang on it change: they are
evaluated, with the error, and wait for nothing. Of the promises just those are rejected that are
pending and belong to such a module, and their reactions, if jobs are kept, are put at the end of the
queue. There are no other changes. -/
theorem failing_changes_what_hangs (s : Store) (m : ModuleId) (e : ErrorId) :
    (∀ depth, s.modules.size < depth → s.rejectFrom depth m e = s.rejectModule m e) ∧
    (s.status? m = some .evaluated → s.rejectModule m e = s) ∧
    (∀ x, (s.rejectModule m e).module? x ≠ s.module? x ↔ s.Hangs m x) ∧
    (∀ x, s.Hangs m x → ∃ M r, s.module? x = some M ∧ M.content = .sourceText r ∧
      (s.rejectModule m e).module? x = some { M with
        content := .sourceText
          { r with evaluationError := some e, asyncState := .settled, status := .evaluated } }) ∧
    (∀ p, s.HangsPromise m p → (s.rejectModule m e).promise? p = some (.rejected e)) ∧
    (∀ p, ¬s.HangsPromise m p → (s.rejectModule m e).promise? p = s.promise? p) ∧
    (∃ ps : List PromiseId, ps.Nodup ∧ (∀ p, p ∈ ps ↔ s.HangsPromise m p) ∧
      (s.rejectModule m e).jobs =
        s.jobs ++ if s.keepsJobs then ps.flatMap (s.rejectionJobs e) else []) ∧
    s.rejectModule m e =
      { s with
        modules := (s.rejectModule m e).modules
        promises := (s.rejectModule m e).promises
        jobs := (s.rejectModule m e).jobs } := by
  obtain ⟨xs, hxs⟩ := falls_rejectFrom (s.modules.size + 1) s m e
  obtain ⟨ps, hps, hpromises⟩ := Falls.rejects hxs
  refine ⟨fun depth hdepth ↦ rejectFrom_of_lt hdepth m e, fun hs ↦ ?_, fun x ↦ Falls.changed_iff hxs,
    fun x hx ↦ ?_, fun p hp ↦ hps.rejected p ((hpromises p).2 hp),
    fun p hp ↦ hps.others p ((hpromises p).not.2 hp), ⟨ps, hps.nodup, hpromises, hps.jobs⟩, ?_⟩
  · rw [rejectModule, rejectFrom, if_pos hs]
  · obtain ⟨M, r, hM, hcontent, -, hM'⟩ := Falls.record hxs hx
    exact ⟨M, r, hM, hcontent, hM'⟩
  · exact congrArg (·.withModules (s.rejectModule m e).modules) hps.frame

end Store

end EcmaModules
