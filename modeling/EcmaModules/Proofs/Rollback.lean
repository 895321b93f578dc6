import EcmaModules.Proofs.Verdict

/-!
# Linking that fails

When linking fails, the modules on the stack of the walk are taken back, and the components that the walk took
off it before stay linked. What these request is linked (`EcmaModules.Proofs.Linked`), so nothing else has to be
taken back.

## Linking again

Another call goes through what is left to be linked in the same order, for what was linked meanwhile leads to
nothing that is left (`postorder_sdiff`). So it fails at the same module, for the same reason. All modules that it
is through with by then were on the stack of the first call, and from there the module is led to at which both
fail. Hence none of them is taken off the stack, and no module is linked that was not linked by the first call.
-/

namespace EcmaModules

variable {s s' s₀ : Store} {m d x root : ModuleId} {β : ModuleId → Option ThrownError} {calm : Prop}
  {out : Store × Result} {e : ErrorId} {done later stack : List ModuleId}

namespace Store

/-- A call that fails at a module, with the modules that are through and those that are on the stack by then. -/
structure Fails (β : ModuleId → Option ThrownError) (calm : Prop) (s₀ s : Store) (root m : ModuleId)
    (done later stack : List ModuleId) (e : ErrorId) : Prop where
  order : s₀.linkOrder root = done ++ m :: later
  passed : ∀ d ∈ done, s₀.verdict? β d = none
  verdict : s₀.verdict? β m = some (s.error e)
  head : m ∈ stack
  root : root ∈ stack
  /-- All modules on the stack lead to the one at which linking fails. -/
  leads : ∀ x ∈ stack, Relation.ReflTransGen s₀.Requires x m
  unlinked : ∀ x ∈ stack, s.status? x = some .unlinked
  settled : ∀ d, s.Linked d → s₀.Linked d ∨ s₀.status? d = some .unlinked ∧ d ∈ done
  reached : ∀ d ∈ done, s.Linked d ∨ d ∈ stack
  spares : ∀ d, ¬s.Linked d → s.status? d = s₀.status? d
  rises : ∀ d status, s₀.status? d = some status → .linked ≤ status →
    ∃ status', s.status? d = some status' ∧ status ≤ status'
  rests : calm → ∀ d, s.Linked d → s.status? d = s₀.status? d ∨
    s₀.status? d = some .unlinked ∧ s.status? d = some .linked

theorem Links.fails (h : s₀.Links β calm root out) (hs : s₀.Linkable root)
    (he : out.2.toCompletion = .error e) :
    ∃ m done later stack, s₀.Fails β calm out.1 root m done later stack e := by
  obtain ⟨s, w, done, ⟨horder, hexplores, hprogress⟩, halone, hechoes, hends⟩ := h.goesThrough hs
  cases hends with
  | done => contradiction
  | @failed s' m rest e' hframes hlevel hverdict =>
    obtain rfl := Except.error.inj he
    have hlinking : ∀ x ∈ w.stack, s.status? x = some .linking :=
      halone.linkage.linking w.tour List.mem_cons_self
    have hstatus := status?_unlink (s := s') (S := w.stack) fun x hx ↦ (hlevel.status x).trans (hlinking x hx)
    have hlinked : ∀ d, (s'.unlink w.stack).Linked d ↔ s.Linked d := fun d ↦ by
      rw [linked_unlink fun x hx ↦ (hlevel.status x).trans (hlinking x hx), linked_iff, linked_iff, hlevel.status]
    have hkept : ∀ d, s.Linked d → (s'.unlink w.stack).status? d = s.status? d := fun d hd ↦ by
      rw [hstatus, if_neg fun hmem ↦ not_linked_of_linking (hlinking d hmem) hd, hlevel.status]
    have hm : m ∈ w.stack :=
      (halone.linking.tidy w List.mem_cons_self).mem (f := ⟨m, []⟩) (hframes ▸ List.mem_cons_self)
    have hleads := hexplores.leads m hm
    have hwoven := halone.woven
    rw [LinkWalk.Woven, hframes] at hwoven
    refine ⟨m, done, remaining s₀.requested s.unlinked (rest.map s₀.ahead), w.stack, ?_, horder.passed, ?_, hm, ?_, fun x hx ↦ ?_, fun x hx ↦ ?_, fun d hd ↦ ?_,
      fun d hd ↦ ?_, fun d hd ↦ ?_, fun d status hd hle ↦ ?_, fun hcalm d hd ↦ ?_⟩
    · have hahead : s₀.ahead ⟨m, []⟩ = (m, []) := rfl
      rw [horder.order, hframes, List.map_cons, hahead, remaining_through]
    · rw [error_unlink, ← hverdict, hs.verdict? hechoes hleads]
    · refine hexplores.root.resolve_right fun hroot ↦ not_linked_of_linking (hlinking m hm) ?_
      exact halone.linking.closed.leads hroot ((hechoes.leads hs.rounded hs.root).2 hleads)
    · exact (hechoes.leads hs.rounded (hs.old (hexplores.leads x hx))).1 (hwoven.leads_to_head hx)
    · rw [hstatus, if_pos hx]
    · have hd := (hlinked d).1 hd
      exact or_iff_not_imp_left.2 fun hnot ↦
        ⟨(hprogress.linked d hd).resolve_left hnot, (horder.settled d hd).resolve_left hnot⟩
    · exact (horder.reached d hd).imp_left (hlinked d).2
    · rw [hstatus]
      split
      · next hmem => exact (hprogress.stack d hmem).symm
      · next hmem => exact (hlevel.status d).trans (hprogress.spares d (mt (hlinked d).2 hd) hmem)
    · obtain ⟨status', hs', hle'⟩ := hprogress.rises d status hd hle
      have hd : s.Linked d := linked_iff.2 fun status hs ↦ Option.some.inj (hs'.symm.trans hs) ▸ hle.trans hle'
      exact ⟨status', (hkept d hd).trans hs', hle'⟩
    · have hd := (hlinked d).1 hd
      rw [hkept d hd]
      exact hprogress.rests hcalm d hd

/-! ## Linking again -/

/-- The requests of a loaded module are given the same modules later, and these have been loaded. -/
theorem Echoes.requested (h : s₀.Echoes s) (hs : s₀.Rounded) (hx : s₀.Old x) :
    s.requested x = s₀.requested x ∧ ∀ y ∈ s₀.requested x, s₀.Old y := by
  refine ⟨?_, fun y hy ↦ hs.requires hx (mem_requested.1 hy)⟩
  rw [Store.requested, h.entries x]
  refine List.filterMap_congr fun q hq ↦ ?_
  obtain ⟨d, hd, -⟩ := hs x hx q hq
  rw [hd, h.grows x q d hd]

/-- The first place in a list at which something holds is in one place. -/
theorem eq_of_first {α : Type} {p : α → Prop} {a a' : α} {l l' rest rest' : List α}
    (h : l ++ a :: rest = l' ++ a' :: rest') (hl : ∀ x ∈ l, ¬p x) (hl' : ∀ x ∈ l', ¬p x) (ha : p a)
    (ha' : p a') : l = l' ∧ a = a' := by
  induction l generalizing l' with
  | nil =>
    cases l' with
    | nil => exact ⟨rfl, (List.cons.inj h).1⟩
    | cons x l' => exact absurd ((List.cons.inj h).1 ▸ ha) (hl' x List.mem_cons_self)
  | cons x l ih =>
    cases l' with
    | nil => exact absurd ((List.cons.inj h).1 ▸ ha') (hl x List.mem_cons_self)
    | cons x' l' =>
      obtain ⟨rfl, htail⟩ := List.cons.inj h
      obtain ⟨rfl, rfl⟩ := ih htail (fun y hy ↦ hl y (List.mem_cons_of_mem x hy)) fun y hy ↦
        hl' y (List.mem_cons_of_mem x hy)
      exact ⟨rfl, rfl⟩

/-- The modules that a failed call has linked. -/
def newlyLinked (s₀ s : Store) : Finset ModuleId := s₀.unlinked \ s.unlinked

namespace Fails

theorem sdiff_newlyLinked (h : s₀.Fails β calm s root m done later stack e) :
    s₀.unlinked \ s₀.newlyLinked s = s.unlinked := by
  rw [newlyLinked, Finset.sdiff_sdiff_eq_self fun x hx ↦ ?_]
  have hx := mem_unlinked.1 hx
  rw [h.spares x fun hl ↦ absurd (linked_iff.1 hl _ hx) (by decide)] at hx
  exact mem_unlinked.2 hx

/-- What is left is gone through in the same order as before. -/
theorem linkOrder_eq (h : s₀.Fails β calm s root m done later stack e) (hs : s₀.Linkable root)
    (hechoes : s₀.Echoes s) (hclosed : s.LinkClosed) :
    s.linkOrder root = (s₀.linkOrder root).filter (· ∉ s₀.newlyLinked s) := by
  have hinside : ∀ x ∈ s₀.newlyLinked s, ∀ y ∈ s₀.requested x, y ∈ s₀.unlinked → y ∈ s₀.newlyLinked s := by
    intro x hx y hy hfresh
    obtain ⟨hx, hout⟩ := Finset.mem_sdiff.1 hx
    have hx := mem_unlinked.1 hx
    have hold : s₀.Old x := fun hnew ↦ absurd (hx.symm.trans hnew) (by simp)
    have hlinked : s.Linked x := by
      by_contra hnot
      exact hout (mem_unlinked.2 ((h.spares x hnot).trans hx))
    have hy := hclosed x y hlinked ((hechoes.requires hs.rounded hold).2 (mem_requested.1 hy))
    refine Finset.mem_sdiff.2 ⟨hfresh, fun hmem ↦ ?_⟩
    exact absurd (linked_iff.1 hy _ (mem_unlinked.1 hmem)) (by decide)
  rw [linkOrder, linkOrder, ← (traverse_sdiff hinside).1, h.sdiff_newlyLinked]
  exact (traverse_congr (Q := s₀.Old) (fun x ↦ hechoes.requested hs.rounded) (fun x _ ↦ Iff.rfl)
    (by simpa using hs.root)).1

/-- The same call fails again, at the same module. It links nothing. -/
theorem again (h : s₀.Fails β calm s root m done later stack e) (hs : s₀.Linkable root)
    (hechoes : s₀.Echoes s) (hclosed : s.LinkClosed) (hs' : s.Linkable root) {calm' : Prop}
    (hlinks : s.Links β calm' root out) (hechoes' : s.Echoes out.1) (hclosed' : out.1.LinkClosed) :
    ∃ e', out.2.toCompletion = .error e' ∧ out.1.error e' = s.error e ∧
      (∀ x, ¬s.Linked x → out.1.status? x = s.status? x) ∧
      (∀ x status, s.status? x = some status → .linked ≤ status →
        ∃ status', out.1.status? x = some status' ∧ status ≤ status') ∧
      (calm' → ∀ x, out.1.status? x = s.status? x) := by
  have hm : m ∉ s₀.newlyLinked s := fun hmem ↦
    (Finset.mem_sdiff.1 hmem).2 (mem_unlinked.2 (h.unlinked m h.head))
  have horder := h.linkOrder_eq hs hechoes hclosed
  rw [h.order, List.filter_append, List.filter_cons_of_pos (by simpa using hm)] at horder
  have hverdict : ∀ x, Relation.ReflTransGen s₀.Requires root x → s.verdict? β x = s₀.verdict? β x := fun x ↦
    hs.verdict? hechoes
  have hleads : Relation.ReflTransGen s₀.Requires root m := h.leads root h.root
  rcases hcompletion : out.2.toCompletion with e' | ⟨⟩
  · obtain ⟨m', done', later', stack', h'⟩ := hlinks.fails hs' hcompletion
    obtain ⟨hdone, rfl⟩ : (done.filter (· ∉ s₀.newlyLinked s)) = done' ∧ m = m' := by
      refine eq_of_first (p := fun x ↦ s.verdict? β x ≠ none) (horder.symm.trans h'.order) (fun x hx ↦ ?_)
        (fun x hx ↦ not_not.2 (h'.passed x hx)) ?_ ?_
      · have hx := (List.mem_filter.1 hx).1
        have hleads := leads_of_mem_linkOrder (h.order ▸ List.mem_append_left _ hx)
        exact not_not.2 ((hverdict x hleads).trans (h.passed x hx))
      · rw [hverdict m hleads, h.verdict]
        simp
      · rw [h'.verdict]
        simp
    have herror : out.1.error e' = s.error e := by
      have h'verdict := h'.verdict
      rw [hverdict m hleads, h.verdict] at h'verdict
      exact (Option.some.inj h'verdict).symm
    -- a module that the second call has linked was on the stack of the first one
    have hstays : ∀ x, out.1.Linked x → s.Linked x := by
      intro x hx
      by_contra hnot
      obtain ⟨-, hmem⟩ := (h'.settled x hx).resolve_left hnot
      have hdone := (List.mem_filter.1 (hdone ▸ hmem)).1
      have hstack := (h.reached x hdone).resolve_left hnot
      have hold := hs.old (leads_of_mem_linkOrder (h.order ▸ List.mem_append_left _ hdone))
      have hold' : s.Old x := fun hnew ↦ absurd ((h.unlinked x hstack).symm.trans hnew) (by simp)
      have hlinked : out.1.Linked m := hclosed'.leads hx <| (hechoes'.leads hs'.rounded hold').2 <|
        (hechoes.leads hs.rounded hold).2 (h.leads x hstack)
      exact absurd (linked_iff.1 hlinked _ (h'.unlinked m h'.head)) (by decide)
    refine ⟨e', rfl, herror, fun x hx ↦ h'.spares x (mt (hstays x) hx), h'.rises, fun hcalm x ↦ ?_⟩
    by_cases hx : out.1.Linked x
    · refine (h'.rests hcalm x hx).resolve_right fun hnewly ↦ ?_
      exact absurd (linked_iff.1 (hstays x hx) _ hnewly.1) (by decide)
    · exact h'.spares x hx
  · have hnone := hlinks.passed hs' hcompletion m (horder ▸ by simp)
    rw [hverdict m hleads, h.verdict] at hnone
    contradiction

end Fails

end Store

/-! ## What failing leaves behind -/

/-- The second store is what a call that links leaves behind when it fails. -/
structure Store.TakenBack (s s' : Store) (root : ModuleId) : Prop where
  root : s'.status? root = some .unlinked
  not_linking : ∀ x, s'.status? x ≠ some .linking
  rises : ∀ x status, s.status? x = some status → .linked ≤ status →
    ∃ status', s'.status? x = some status' ∧ status ≤ status'
  /-- Only unlinked modules change, and these are linked now. -/
  others : ∀ x, ¬s.Linked x → s'.status? x = s.status? x ∨ s.status? x = some .unlinked ∧ s'.Linked x
  closed : ∀ x d, s'.Linked x → s'.Requires x d → s'.Linked d

/-- A call that does nothing but to link leaves it exactly so. -/
def Store.TakenBackExactly (s s' : Store) : Prop :=
  ∀ x, s'.status? x = s.status? x ∨ s.status? x = some .unlinked ∧ s'.status? x = some .linked

/-- When linking fails, all modules that are not linked by then are as they were before. Linked modules have
requested linked ones, and none is being linked. What was linked before has not been taken back; it is as before
if bodies have evaluated nothing. If bodies behave the same, the same call fails again, with the same error, and
then no more modules are linked. -/
theorem failed_linking_is_taken_back {M : Machine} {n : ℕ} {r : Result} (hs : s₀.Unread) (hfresh : s₀.Fresh)
    (hturns : Turns Machine.LinksApart (.idle s₀) (.idle s)) (hroot : s.status? root = some .unlinked)
    (hcall : s.LinksAs β root) (hM : Machine.step^[n] (.start s (.link root)) = M)
    (hr : M.result? = some r) (he : r.toCompletion = .error e) :
    s.TakenBack M.store root ∧ (s.LinksOnly root → s.TakenBackExactly M.store) ∧
    (M.store.LinksAs β root → ∃ M' n' r' e', M' = Machine.step^[n'] (.start M.store (.link root)) ∧
      M'.result? = some r' ∧ r'.toCompletion = .error e' ∧ M'.store.error e' = M.store.error e ∧
      (∀ x, ¬M.store.Linked x → M'.store.status? x = M.store.status? x) ∧
      (∀ x status, M.store.status? x = some status → .linked ≤ status →
        ∃ status', M'.store.status? x = some status' ∧ status ≤ status') ∧
      (M.store.LinksOnly root → ∀ x, M'.store.status? x = M.store.status? x)) := by
  have hold : s.Old root := fun hnew ↦ absurd (hroot.symm.trans hnew) (by simp)
  obtain ⟨k, r₁, hr₁, hconcluded⟩ := hcall.concluded hs hfresh hturns hold
  subst hM
  have heq := Machine.iterate_eq_of_result? hr hr₁
  rw [heq] at hr ⊢
  obtain rfl := Option.some.inj (hr.symm.trans hr₁)
  generalize Machine.step^[k] (.start s (.link root)) = M at hconcluded
  obtain ⟨hlinkable, hlinks, hturns', hechoes, hlinking⟩ := hconcluded
  obtain ⟨m, done, later, stack, hfails⟩ := hlinks.fails hlinkable he
  refine ⟨⟨hfails.unlinked root hfails.root, hlinking.not_linking, hfails.rises, fun x hx ↦ ?_, hlinking.closed⟩,
    fun honly x ↦ ?_, fun hagain ↦ ?_⟩
  · by_cases hx' : M.store.Linked x
    · exact .inr ⟨((hfails.settled x hx').resolve_left hx).1, hx'⟩
    · exact .inl (hfails.spares x hx')
  · by_cases hx : M.store.Linked x
    · exact hfails.rests honly x hx
    · exact .inl (hfails.spares x hx)
  · have hold' : M.store.Old root := fun hnew ↦
      absurd ((hfails.unlinked root hfails.root).symm.trans hnew) (by simp)
    obtain ⟨k', r', hr', hconcluded'⟩ := hagain.concluded hs hfresh hturns' hold'
    obtain ⟨e', he', hsame, hspares, hrises, hrests⟩ := hfails.again hlinkable hechoes hlinking.closed
      hconcluded'.linkable hconcluded'.links hconcluded'.echoes hconcluded'.linking.closed
    exact ⟨_, k', r', e', rfl, hr', he', hsame, hspares, hrises, hrests⟩

/-! ### Graphs in which linking fails -/

/-- A check for `LinksOnly`. -/
def Machine.evaluatesNow (M : Machine) : Bool :=
  match M.control with
  | .run (.evaluate _) | .run (.force _) => true
  | _ => false

theorem Store.linksOnly_of_evaluatesNow {n : ℕ}
    (h : ∀ i ≤ n, (Machine.step^[i] (.start s (.link root))).evaluatesNow = false)
    (hr : (Machine.step^[n] (.start s (.link root))).result?.isSome) : s.LinksOnly root := by
  intro i hevaluates
  have hi := Machine.forall_iterate_of_result? (P := fun M ↦ M.evaluatesNow = false) h hr i
  obtain ⟨m, hm | hm⟩ := hevaluates
  · simp [Machine.evaluatesNow, hm] at hi
  · simp [Machine.evaluatesNow, hm] at hi

namespace lackingGraph

/-- The last module cannot be linked; the one that it imports from is linked by then. -/
def failed : Machine := Machine.step^[8] (.start loaded (.link ⟨2⟩))

end lackingGraph

open lackingGraph in
theorem failed_linking_is_taken_back_lackingGraph :
    lackingGraph.Unread ∧ lackingGraph.Fresh ∧ Turns Machine.LinksApart (.idle lackingGraph) (.idle loaded) ∧
    loaded.LinksAs (fun _ ↦ none) ⟨2⟩ ∧ loaded.LinksOnly ⟨2⟩ ∧
    (∃ r e, failed.result? = some r ∧ r.toCompletion = .error e ∧
      loaded.TakenBack failed.store ⟨2⟩ ∧ loaded.TakenBackExactly failed.store ∧
      failed.store.LinksAs (fun _ ↦ none) ⟨2⟩ ∧
      ∃ n' r' e', (Machine.step^[n'] (.start failed.store (.link ⟨2⟩))).result? = some r' ∧
        r'.toCompletion = .error e' ∧
        (Machine.step^[n'] (.start failed.store (.link ⟨2⟩))).store.error e' = failed.store.error e) ∧
    failed.store.status? ⟨1⟩ = some .linked ∧ failed.store.status? ⟨2⟩ = some .unlinked := by
  obtain ⟨hunread, hfresh, -⟩ := Store.unread_of_written (s := lackingGraph) (l := lackingNames) rfl rfl rfl rfl
    (by simp [lackingNames, Entries.requestOf?])
  have hcall : loaded.LinksAs (fun _ ↦ none) ⟨2⟩ :=
    Store.linksAs_of_linksAsNow (n := 12) (by decide +kernel) (by decide +kernel)
  have honly : loaded.LinksOnly ⟨2⟩ :=
    Store.linksOnly_of_evaluatesNow (n := 12) (by decide +kernel) (by decide +kernel)
  have hagain : failed.store.LinksAs (fun _ ↦ none) ⟨2⟩ :=
    Store.linksAs_of_linksAsNow (n := 12) (by decide +kernel) (by decide +kernel)
  obtain ⟨r, hr, he⟩ := Option.map_eq_some_iff.1
    (show failed.result?.map Result.toCompletion = some (.error ⟨0⟩) by decide +kernel)
  obtain ⟨hback, hexactly, hretry⟩ := failed_linking_is_taken_back hunread hfresh lackingGraph.turns_loaded
    (by decide +kernel) hcall rfl hr he
  obtain ⟨M', n', r', e', rfl, hr', he', hsame, -⟩ := hretry hagain
  exact ⟨hunread, hfresh, turns_loaded, hcall, honly, ⟨r, ⟨0⟩, hr, he, hback, hexactly honly, hagain, n', r', e', hr',
    he', hsame⟩, by decide +kernel, by decide +kernel⟩

/-- The second module reads from a namespace of the last one while its environment is set up. The third one
imports something that the last one does not have. -/
def probingNames : List (List Syntax.Declaration × List Step) :=
  [([.imports [] { specifier := "helper" }, .imports [] { specifier := "broken" }], []),
    ([.imports [⟨none, "lib"⟩] { specifier := "lib", phase := .defer }], [.probe "lib" "x"]),
    ([.imports [⟨some "nope", "nope"⟩] { specifier := "lib" }], []),
    ([.exportVariables ⟨.let, [⟨.leaf (.identifier "x"), none⟩]⟩], [])]

def probingGraph : Store where
  modules := (probingNames.map fun p ↦ Module.written p.1 p.2).toArray
  stage := { modules := [("helper", ⟨1⟩), ("broken", ⟨2⟩), ("lib", ⟨3⟩)] }

namespace probingGraph

/-- All modules have been loaded, and the last one has been linked. -/
def linked : Store :=
  ((Machine.start ((Machine.start probingGraph (.load ⟨0⟩ none)).serve 40).store (.link ⟨3⟩)).serve 10).store

def failed : Machine := Machine.step^[20] (.start linked (.link ⟨0⟩))

end probingGraph

open probingGraph in
/-- Linking fails at the third module. By then the last one has been evaluated, and it stays so. -/
theorem probingGraph_failed_linking_evaluates :
    probingGraph.Unread ∧ probingGraph.Fresh ∧ Turns Machine.LinksApart (.idle probingGraph) (.idle linked) ∧
    linked.LinksAs (fun _ ↦ none) ⟨0⟩ ∧ linked.status? ⟨0⟩ = some .unlinked ∧
    (∃ r e, failed.result? = some r ∧ r.toCompletion = .error e) ∧
    linked.status? ⟨3⟩ = some .linked ∧ failed.store.status? ⟨3⟩ = some .evaluated := by
  obtain ⟨hunread, hfresh, -⟩ := Store.unread_of_written (s := probingGraph) (l := probingNames) rfl rfl rfl rfl
    (by simp [probingNames, Entries.requestOf?])
  have hcheck := Machine.linksApart_of_linksAside
  have hlinked : Turns Machine.LinksApart (.idle probingGraph) (.idle linked) :=
    Turns.served (a := .link ⟨3⟩) (n := 10)
      (Turns.served (a := .load ⟨0⟩ none) (n := 40) .refl hcheck rfl (by decide +kernel) (by decide +kernel))
      hcheck rfl (by decide +kernel) (by decide +kernel)
  have hcall : linked.LinksAs (fun _ ↦ none) ⟨0⟩ :=
    Store.linksAs_of_linksAsNow (n := 20) (by decide +kernel) (by decide +kernel)
  obtain ⟨r, hr, he⟩ := Option.map_eq_some_iff.1
    (show failed.result?.map Result.toCompletion = some (.error ⟨1⟩) by decide +kernel)
  exact ⟨hunread, hfresh, hlinked, hcall, by decide +kernel, ⟨r, _, hr, he⟩, by decide +kernel, by decide +kernel⟩

end EcmaModules
