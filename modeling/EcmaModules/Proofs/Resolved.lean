import EcmaModules.Proofs.Linked
import EcmaModules.Proofs.Namespaces

/-!
# The names of linked modules are resolved

When the environment of a module is set up, the names that it re-exports and imports are resolved. The
first one that stands for nothing, or for more than one thing, is complained of; if there is none, all
imported names are bound.

What a name of a loaded module stands for does not change (`State.Charted.resolveExport_turns`). So there
is nothing to be complained of in a module whose environment was set up at some time: in modules that are
linked, and in those that wait on the stack of a walk for the rest of their components.
-/

namespace EcmaModules

variable {s s' : Store} {m x : ModuleId} {e : ErrorId}

theorem Entries.request_mem_asked {es : Entries} {i : ImportEntry} (hi : i ∈ es.imports) :
    i.request ∈ es.asked := by
  simp only [asked, List.mem_append, List.mem_map]
  exact .inl (.inl (.inr ⟨i, hi, rfl⟩))

/-! ## Complaints -/

/-- The error that a name cannot be imported with the request. -/
def Request.complaint (r : Request) (name : String) (found : Resolution) : ThrownError where
  kind := .syntaxError
  message := "The requested module '" ++ r.specifier ++ "' " ++
    (match found with
      | .ambiguous => "contains conflicting star exports for name"
      | _ => "does not provide an export named") ++ " '" ++ name ++ "'"

/-- What is wrong when the name stands for this. -/
def Request.complaint? (r : Request) (name : String) (found : Resolution) : Option ThrownError :=
  if found.isBinding then none else some (r.complaint name found)

theorem Request.complaint?_eq_none_iff {r : Request} {name : String} {found : Resolution} :
    r.complaint? name found = none ↔ found.isBinding = true := by
  cases found <;> simp [complaint?, Resolution.isBinding]

namespace Store

/-- What is wrong with an import. Nothing is, if no module was loaded for it or all of its names are
imported. -/
def importComplaint? (s : Store) (m : ModuleId) (i : ImportEntry) : Option ThrownError :=
  (s.imported? m i.request).bind fun target ↦
    i.imported.bind fun name ↦ i.request.complaint? name (s.resolveExport target name)

/-- What is complained of when the environment of the module is set up. -/
def complaint? (s : Store) (m : ModuleId) : Option ThrownError :=
  match s.brokenReexport? m with
  | some e => some (e.request.complaint e.exported (s.resolveExport m e.exported))
  | none => (s.entries m).imports.findSome? (s.importComplaint? m)

theorem kind_of_complaint? {error : ThrownError} (h : s.complaint? m = some error) :
    error.kind = .syntaxError := by
  unfold complaint? at h
  split at h
  · rw [← Option.some.inj h]
    rfl
  · obtain ⟨i, -, hi⟩ := List.exists_of_findSome?_eq_some h
    obtain ⟨target, -, hi⟩ := Option.bind_eq_some_iff.1 hi
    obtain ⟨name, -, hi⟩ := Option.bind_eq_some_iff.1 hi
    unfold Request.complaint? at hi
    split at hi
    · contradiction
    · rw [← Option.some.inj hi]
      rfl

/-- There is nothing to complain of if all names stand for single things. -/
theorem complaint?_eq_none_iff : s.complaint? m = none ↔
    (∀ e ∈ (s.entries m).indirectExports, (s.resolveExport m e.exported).isBinding = true) ∧
      ∀ i ∈ (s.entries m).imports, ∀ target name, s.imported? m i.request = some target →
        i.imported = some name → (s.resolveExport target name).isBinding = true := by
  have himport : ∀ i, s.importComplaint? m i = none ↔ ∀ target name,
      s.imported? m i.request = some target → i.imported = some name →
        (s.resolveExport target name).isBinding = true := fun i ↦ by
    simp only [importComplaint?, Option.bind_eq_none_iff, Request.complaint?_eq_none_iff]
    exact ⟨fun h target name ht ↦ h target ht name, fun h target ht name ↦ h target name ht⟩
  unfold complaint?
  rcases hbroken : s.brokenReexport? m with _ | e
  · have hnone := List.find?_eq_none.1 hbroken
    simp only [Bool.not_eq_true', Bool.not_eq_false] at hnone
    simp only [List.findSome?_eq_none_iff, himport]
    exact (and_iff_right hnone).symm
  · obtain ⟨hwrong, -⟩ := List.find?_eq_some_iff_append.1 hbroken
    refine iff_of_false nofun fun h ↦ ?_
    rw [h.1 e (List.mem_of_find?_eq_some hbroken)] at hwrong
    contradiction

theorem complaint?_congr (hentries : s'.entries m = s.entries m)
    (hown : ∀ name, s'.resolveExport m name = s.resolveExport m name)
    (himported : ∀ i ∈ (s.entries m).imports, s'.imported? m i.request = s.imported? m i.request)
    (htargets : ∀ i ∈ (s.entries m).imports, ∀ target, s.imported? m i.request = some target →
      ∀ name, s'.resolveExport target name = s.resolveExport target name) :
    s'.complaint? m = s.complaint? m := by
  have himport : ∀ i ∈ (s.entries m).imports, s'.importComplaint? m i = s.importComplaint? m i :=
    fun i hi ↦ by
      rw [importComplaint?, himported i hi, importComplaint?]
      refine Option.bind_congr fun target htarget ↦ Option.bind_congr fun name _ ↦ ?_
      rw [htargets i hi target htarget]
  have himports : ∀ is ⊆ (s.entries m).imports,
      is.findSome? (s'.importComplaint? m) = is.findSome? (s.importComplaint? m) := fun is hsub ↦ by
    induction is with
    | nil => rw [List.findSome?_nil, List.findSome?_nil]
    | cons i rest ih =>
      rw [List.cons_subset] at hsub
      rw [List.findSome?_cons, List.findSome?_cons, himport i hsub.1, ih hsub.2]
  have hbroken : s'.brokenReexport? m = s.brokenReexport? m := by
    unfold brokenReexport?
    rw [hentries, funext hown]
  rw [complaint?, hbroken, hentries, himports _ (List.Subset.refl _), complaint?]
  rcases s.brokenReexport? m with _ | e
  · rfl
  · dsimp only
    rw [hown]

/-- Making namespaces changes nothing of that. -/
theorem Furnishes.complaint? (h : s.Furnishes s') (m : ModuleId) :
    s'.complaint? m = s.complaint? m := by
  refine complaint?_congr (h.entries m) (h.resolveExport m) (fun i _ ↦ ?_)
    fun i _ target _ ↦ h.resolveExport target
  rw [imported?_eq, h.loaded, ← imported?_eq]

/-- The complaint about a loaded module is the same as before. -/
theorem Echoes.complaint? (h : s.Echoes s') (hf : s.Filed) (hr : s.Rounded) (hm : s.Old m) :
    s'.complaint? m = s.complaint? m := by
  have hold : ∀ i ∈ (s.entries m).imports, ∃ d, s.imported? m i.request = some d ∧ s.Old d :=
    fun i hi ↦ hf.imported hr hm (Entries.request_mem_asked hi)
  refine complaint?_congr (h.entries m) (h.resolveExport_of_old hf hr hm) (fun i hi ↦ ?_)
    fun i hi target htarget ↦ ?_
  · obtain ⟨d, hd, -⟩ := hold i hi
    rw [hd, h.grows m _ d hd]
  · obtain ⟨d, hd, hold⟩ := hold i hi
    obtain rfl := Option.some.inj (hd.symm.trans htarget)
    exact h.resolveExport_of_old hf hr hold

/-! ## Setting up environments -/

theorem error_throw (s : Store) (kind : ErrorKind) (message : String) :
    (s.throw kind message).2.error (s.throw kind message).1 = ⟨kind, message⟩ := by
  simp [throw, error]

theorem error_unresolved (s : Store) (r : Request) (name : String) (found : Resolution) :
    (s.unresolved r name found).2.error (s.unresolved r name found).1 = r.complaint name found :=
  s.error_throw _ _

/-- An import is bound, or that is complained of. -/
inductive BindsImport (s : Store) (m target : ModuleId) (i : ImportEntry) :
    Outcome ImportBinding × Store → Prop where
  | bound {b : ImportBinding} {s' : Store} : s.importComplaint? m i = none →
      BindsImport s m target i (.ok b, s')
  | refused {e : ErrorId} {s' : Store} : s.importComplaint? m i = some (s'.error e) →
      BindsImport s m target i (.error e, s')

theorem bindImport_binds {target : ModuleId} {i : ImportEntry}
    (h : s.imported? m i.request = some target) : s.BindsImport m target i (s.bindImport target i) := by
  unfold bindImport
  split
  · next hi => exact .bound (by simp [importComplaint?, h, hi])
  · next name hi =>
    have hcomplaint : s.importComplaint? m i =
        i.request.complaint? name (s.resolveExport target name) := by
      simp [importComplaint?, h, hi]
    split
    · next heq => exact .bound (by rw [hcomplaint, heq]; rfl)
    · next heq => exact .bound (by rw [hcomplaint, heq]; rfl)
    · next found hnone hsome =>
      have hnot : ¬(s.resolveExport target name).isBinding = true := fun hbinding ↦ by
        rcases hfound : s.resolveExport target name with _ | _ | ⟨d, _ | owned⟩
        · rw [hfound] at hbinding
          contradiction
        · rw [hfound] at hbinding
          contradiction
        · exact hnone d hfound
        · exact hsome d owned hfound
      exact .refused (hcomplaint.trans ((if_neg hnot).trans
        (congrArg some (s.error_unresolved i.request name _).symm)))

/-- All imports are bound, or the first one that cannot be is complained of. -/
theorem bindImports_spec (s : Store) (m : ModuleId) (is : List ImportEntry)
    (env : List (String × ImportBinding)) :
    (∃ env' s', s.bindImports m is env = (.ok env', s') ∧ is.findSome? (s.importComplaint? m) = none) ∨
      ∃ e s', s.bindImports m is env = (.error e, s') ∧
        is.findSome? (s.importComplaint? m) = some (s'.error e) := by
  induction is generalizing s env with
  | nil => exact .inl ⟨env, s, rfl, rfl⟩
  | cons i rest ih =>
    rw [bindImports, List.findSome?_cons]
    split
    · next hnone =>
      have himport : s.importComplaint? m i = none := by simp [importComplaint?, hnone]
      rw [himport]
      exact ih s env
    · next target htarget =>
      have hbinds := bindImport_binds htarget
      have hapart := s.bindImport_apart target i
      generalize s.bindImport target i = out at hbinds hapart ⊢
      cases hbinds with
      | refused hcomplaint => exact .inr ⟨_, _, rfl, by rw [hcomplaint]⟩
      | @bound b s' hnone =>
        have hfurnishes := hapart.steady.furnishes
        have himports : ∀ i, s'.importComplaint? m i = s.importComplaint? m i := fun i ↦ by
          unfold importComplaint?
          rw [imported?_eq, hfurnishes.loaded, ← imported?_eq]
          simp only [hfurnishes.resolveExport]
        rw [hnone]
        simpa only [funext himports] using ih s' ((i.localName, b) :: env)

/-- What comes of setting up the environment of a module. -/
inductive SetsUp (s : Store) (m : ModuleId) : Completion × Store → Prop where
  | bound {s' : Store} : s.complaint? m = none → ((s.source? m).isSome → s'.Bound m) →
      SetsUp s m (.ok (), s')
  | refused {e : ErrorId} {s' : Store} : s.complaint? m = some (s'.error e) →
      SetsUp s m (.error e, s')

theorem initializeEnvironment_setsUp (s : Store) (m : ModuleId) :
    s.SetsUp m (s.initializeEnvironment m) := by
  rcases hr : s.source? m with _ | r
  · have hinit : s.initializeEnvironment m = (.ok (), s) := by rw [initializeEnvironment, hr]
    rw [hinit]
    refine .bound (complaint?_eq_none_iff.2 ?_) (by simp [hr])
    simp [entries, hr]
  have hentries : s.entries m = r.entries := by rw [entries, hr, Option.map_some, Option.getD_some]
  rcases hbroken : s.brokenReexport? m with _ | e
  · have hcomplaint : s.complaint? m = r.entries.imports.findSome? (s.importComplaint? m) := by
      rw [complaint?, hbroken, hentries]
    rcases s.bindImports_spec m r.entries.imports [] with ⟨env, s', heq, hnone⟩ | ⟨e, s', heq, hsome⟩
    · have hsame := (s.initializeEnvironment_furnishing m).level.toSame
      have himported := (heq ▸ s.bindImports_apart m r.entries.imports []).steady.imported m
      have hscript := (heq ▸ s.bindImports_apart m r.entries.imports []).steady.script m
      obtain ⟨r', hr', -⟩ : ∃ r', s'.source? m = some r' ∧ r'.script = r.script := by
        simpa [script?, hr, Option.map_eq_some_iff] using hscript
      have hinit : s.initializeEnvironment m =
          (.ok (), (s'.modifySource m fun r ↦ { r with environment := some env }).modifyModule m
            fun r'' ↦ { r'' with bindings := declaredVariables r.body }) := by
        simp only [initializeEnvironment, hr, hbroken, heq]
      rw [hinit] at hsame ⊢
      refine .bound (hcomplaint.trans hnone) fun _ ↦ ⟨env, ?_, fun i hi ↦ ?_⟩
      · rw [environment?, source?_modifyModule_of_content fun r'' : Module ↦ ?_, source?_modifySource,
          if_pos rfl, hr']
        · rfl
        · rfl
      · rw [hsame.entries, hentries] at hi
        rw [hsame.imported, ← himported]
        exact (suits_bindImports heq).all i hi
    · have hinit : s.initializeEnvironment m = (.error e, s') := by
        simp only [initializeEnvironment, hr, hbroken, heq]
      rw [hinit]
      exact .refused (hcomplaint.trans hsome)
  · have hinit : s.initializeEnvironment m =
        (.error (s.unresolved e.request e.exported (s.resolveExport m e.exported)).1,
          (s.unresolved e.request e.exported (s.resolveExport m e.exported)).2) := by
      simp only [initializeEnvironment, hr, hbroken]
    rw [hinit]
    refine .refused ?_
    rw [complaint?, hbroken, error_unresolved]

/-! ## Modules whose names are resolved -/

/-- All names of the module are resolved, and those that it imports are bound. -/
structure Resolved (s : Store) (m : ModuleId) : Prop where
  complaint : s.complaint? m = none
  bound : (s.source? m).isSome → s.Bound m

/-- An environment that is changed is the one that is set up for its module, which has been loaded. -/
def Equips (s s' : Store) : Prop :=
  ∀ m, s'.environment? m = s.environment? m ∨ s'.Equipped m ∧ s.Old m

theorem Equips.of_modules (h : s'.modules = s.modules) : s.Equips s' := fun m ↦
  .inl (environment?_congr (source?_congr h) m)

/-- The names of a loaded module stay resolved. -/
theorem Resolved.keep (h : s.Resolved m) (hm : s.Old m) (hs : s.Echoes s') (hb : s.Equips s')
    (hf : s.Filed) (hr : s.Rounded) : s'.Resolved m := by
  refine ⟨(hs.complaint? hf hr hm).trans h.complaint, fun hsource ↦ ?_⟩
  obtain ⟨t, ht⟩ := Option.isSome_iff_exists.1 hsource
  obtain ⟨t', ht', -⟩ := source?_of_entries (fun m ↦ (hs.isSome m).symm)
    (fun m ↦ (hs.entries m).symm) (fun m ↦ (hs.exports m).symm) ht
  rcases hb m with heq | hbound
  · obtain ⟨env, henv, hall⟩ := h.bound (Option.isSome_of_mem ht')
    refine ⟨env, heq.trans henv, fun i hi _ ↦ ?_⟩
    rw [hs.entries] at hi
    obtain ⟨d, hd, -⟩ := hf.imported hr hm (Entries.request_mem_asked hi)
    exact hall i hi (Option.isSome_of_mem hd)
  · exact hbound.1.bound

end Store

/-! ### Turns of a run -/

theorem Machine.Charted.equips {M M' : Machine} (h : M.Charted) (hP : M.Fair M') :
    M.store.Equips M.step.store := by
  by_cases hin : M.Inner
  · have hamong := h.among.store h.charts.rounded.knows hP.evaluate hin
    intro m
    by_cases hold : M.store.Old m
    · exact (hamong.same.environment m).imp_right fun hequipped ↦ ⟨hequipped, hold⟩
    · exact .inl (hamong.environment hold)
  rcases hnext : M.next? with _ | x
  · rw [step_of_next?_eq_none hnext]
    exact .of_modules rfl
  rw [step_of_next? hnext, store_apply]
  obtain ⟨s, control, fs⟩ := M
  rcases control with t | r
  · obtain rfl : x = t.advance s := advance_of_next? hnext
    refine fun m ↦ .inl ((Task.advance_fetches s ?_).environment m)
    refine Bool.not_eq_false _ ▸ fun hlocal ↦ hin ⟨?_, nofun⟩
    rintro _ ⟨⟩
    exact hlocal
  · rcases fs with _ | ⟨f, fs⟩
    · exact nomatch hnext
    obtain rfl : x = f.resume s r := (Option.some.inj hnext).symm
    by_cases hsteps : ∃ m, f = .syntheticSteps m
    · obtain ⟨m, rfl⟩ := hsteps
      exact fun x ↦ .inl ((Frame.resume_fetches s r m).environment x)
    · refine absurd ⟨nofun, fun _ m _ _ heq ↦ hsteps ⟨m, ?_⟩⟩ hin
      exact (List.cons.inj heq).1

namespace State

variable {st st' : State}

theorem Charted.turn_equips (h : st.Charted) (ht : Turn Machine.Fair st st') :
    st.store.Equips st'.store := by
  cases ht with
  | @call s a st' ha =>
    cases a with
    | namespaceOf m phase =>
      obtain rfl := Option.some.inj ha
      exact fun x ↦ .inl ((s.namespaceOf_apart m phase).steady.scenery x)
    | job =>
      simp only [Act.begin] at ha
      split at ha
      · contradiction
      · obtain rfl := Option.some.inj ha
        exact .of_modules rfl
    | settle label c =>
      obtain ⟨p, -, rfl⟩ := Option.map_eq_some_iff.1 ha
      exact .of_modules (s.modules_settle p c)
    | _ =>
      obtain rfl := Option.some.inj ha
      exact .of_modules rfl
  | step hP => exact Machine.Charted.equips h hP
  | consult _ hs => exact fun x ↦ .inl (hs.aside.steady.scenery x)
  | @answer a M q as hq =>
    obtain ⟨s, control, fs⟩ := M
    obtain rfl : control = _ := Machine.control_of_question? hq
    exact .of_modules rfl
  | finish => exact .of_modules rfl

/-- In the course of a run, the names of a loaded module stay resolved. -/
theorem Charted.turn_resolved (h : st.Charted) (ht : Turn Machine.Fair st st') {m : ModuleId}
    (hold : st.store.Old m) (hm : st.store.Resolved m) : st'.store.Resolved m :=
  have ⟨hfiled, hrounded⟩ := h.closed
  hm.keep hold (h.turn_echoes ht) (h.turn_equips ht) hfiled hrounded

end State

/-! ## Modules whose environments were set up -/

namespace Machine

variable {M M' : Machine}

/-- The names are resolved of modules that are linked, and of those on the stack of a walk that it is
through with, or will be when the body has taken its steps. -/
structure Vetted (M : Machine) : Prop where
  linked : ∀ m, M.store.Linked m → M.store.Resolved m
  passed : ∀ w ∈ M.linkWalks, ∀ x ∈ w.stack, (∀ f ∈ w.frames, f.module ≠ x) → M.store.Resolved x
  setUps : ∀ m w, Frame.setUp m w ∈ M.frames → M.store.Resolved m

theorem mem_frames_apply {fs : List Frame} {x : Store × Next} {f : Frame}
    (h : f ∈ (apply fs x).frames) : f ∈ fs ∨ ∃ t, x.2 = .call t f := by
  obtain ⟨s, n⟩ := x
  cases n with
  | call t g => exact (List.mem_cons.1 h).symm.imp_right fun heq ↦ ⟨t, by rw [heq]⟩
  | _ => exact .inl h

theorem linking_of_mem_linkWalks (h : M.Interlinked) {w : LinkWalk} (hw : w ∈ M.linkWalks)
    (hx : x ∈ w.stack) : M.store.status? x = some .linking := by
  have hl := h.upward.linkage
  rw [← M.map_linkWalks] at hl
  exact hl.linking w.tour (List.mem_map_of_mem hw) x hx

theorem linking_of_setUp (h : M.Interlinked) {w : LinkWalk} {m : ModuleId}
    (hf : Frame.setUp m w ∈ M.frames) : M.store.status? m = some .linking := by
  have hw : ({ w with frames := ⟨m, []⟩ :: w.frames } : LinkWalk) ∈ M.linkWalks :=
    List.mem_append_right _ (List.mem_flatMap.2 ⟨_, hf, List.mem_singleton.2 rfl⟩)
  exact linking_of_mem_linkWalks h hw ((h.linking.tidy _ hw).mem (f := ⟨m, []⟩) List.mem_cons_self)

theorem mem_linkWalks_of_rest {w : LinkWalk} (hw : w ∈ M.rest.flatMap Frame.linkWalks) :
    w ∈ M.linkWalks := by
  obtain ⟨f, hf, hw⟩ := List.mem_flatMap.1 hw
  exact List.mem_append_right _ (List.mem_flatMap.2 ⟨f, mem_of_mem_rest hf, hw⟩)

/-- What has to be known of what comes next. -/
theorem Vetted.next (hv : M.Vetted) (h : M.Interlinked) {s' : Store} {n : Next}
    (hnext : M.next? = some (s', n))
    (hkeep : ∀ x, M.store.Old x → M.store.Resolved x → s'.Resolved x)
    (hlinked : ∀ x, s'.Linked x → M.store.Linked x ∨ s'.Resolved x)
    (hwalks : ∀ w ∈ n.linkWalks, ∀ x ∈ w.stack, (∀ f ∈ w.frames, f.module ≠ x) → s'.Resolved x)
    (hframe : ∀ t m w, n = .call t (.setUp m w) → s'.Resolved m) : M.step.Vetted := by
  have hstep := step_of_next? hnext
  have hstore : M.step.store = s' := by rw [hstep, store_apply]
  refine ⟨fun x hx ↦ ?_, fun w hw x hx hout ↦ ?_, fun m w hf ↦ ?_⟩
  · rw [hstore] at hx ⊢
    exact (hlinked x hx).elim (fun hx ↦ hkeep x hx.old (hv.linked x hx)) id
  · rw [hstore]
    rw [hstep, linkWalks_apply] at hw
    rcases List.mem_append.1 hw with hw | hw
    · exact hwalks w hw x hx hout
    · have hw := mem_linkWalks_of_rest hw
      exact hkeep x (Store.old_of_linking (linking_of_mem_linkWalks h hw hx)) (hv.passed w hw x hx hout)
  · rw [hstore]
    rw [hstep] at hf
    rcases mem_frames_apply hf with hf | ⟨t, hn⟩
    · have hf := mem_of_mem_rest hf
      exact hkeep m (Store.old_of_linking (linking_of_setUp h hf)) (hv.setUps m w hf)
    · exact hframe t m w hn

/-- A walk takes a step. -/
theorem Vetted.walk (hv : M.Vetted) (h : M.Interlinked) {w : LinkWalk} {out : Store × LinkStep}
    (hnext : M.next? = some (out.2.next out.1)) (hcontrol : M.control = .run (.linking w))
    (hadvances : w.Advances M.store out)
    (hkeep : ∀ x, M.store.Old x → M.store.Resolved x → (out.2.next out.1).1.Resolved x) :
    M.step.Vetted := by
  have hall := hv.next h hnext hkeep
  have hw : w ∈ M.linkWalks := by
    refine List.mem_append_left _ ?_
    rw [current, hcontrol]
    exact List.mem_singleton.2 rfl
  have hlinking : ∀ x ∈ w.stack, M.store.status? x = some .linking := fun x ↦
    linking_of_mem_linkWalks h hw
  -- what the walk is through with is resolved already
  have hpassed : ∀ x ∈ w.stack, (∀ f ∈ w.frames, f.module ≠ x) → (out.2.next out.1).1.Resolved x :=
    fun x hx hout ↦ hkeep x (Store.old_of_linking (hlinking x hx)) (hv.passed w hw x hx hout)
  cases hadvances with
  | done _ => exact hall (fun x hx ↦ .inl hx) (by rintro _ ⟨⟩) (by rintro _ _ _ ⟨⟩)
  | @environment s' m rest hframes hinit =>
    have hsetsUp := M.store.initializeEnvironment_setsUp m
    have hsteady := (M.store.initializeEnvironment_furnishing m).level
    rw [hinit] at hsetsUp hsteady
    refine hall (fun x hx ↦ .inl (hx.congr (hsteady.status x).symm)) ?_ ?_
    · intro w' hw' x hx hout
      obtain rfl := List.mem_singleton.1 hw'
      exact hpassed x hx (hframes ▸ hout)
    · intro t m' w' heq
      obtain ⟨rfl, -⟩ := Frame.setUp.inj (Next.call.inj heq).2
      cases hsetsUp with
      | bound hnone hbound =>
        refine ⟨(hsteady.furnishes.complaint? m).trans hnone, fun hsource ↦ hbound ?_⟩
        have hscript : (s'.script? m).isSome = (M.store.script? m).isSome :=
          congrArg Option.isSome (hsteady.script m)
        rw [Store.script?, Store.script?, Option.isSome_map, Option.isSome_map] at hscript
        exact hscript ▸ hsource
  | @broken s' m rest e hframes hinit =>
    have hsteady := (M.store.initializeEnvironment_furnishing m).level
    rw [hinit] at hsteady
    refine hall (fun x hx ↦ .inl ?_) (by rintro _ ⟨⟩) (by rintro _ _ _ ⟨⟩)
    have hx := (Store.linked_unlink fun y hy ↦ (hsteady.status y).trans (hlinking y hy)).1 hx
    exact hx.congr (hsteady.status x).symm
  | absent hframes _ =>
    refine hall (fun x hx ↦ .inl hx) ?_ (by rintro _ _ _ ⟨⟩)
    intro w' hw' x hx hout
    obtain rfl := List.mem_singleton.1 hw'
    refine hpassed x hx (hframes ▸ ?_)
    simpa using hout
  | @enter m d q requests rest hframes _ hd =>
    refine hall (fun x hx ↦ .inl ((LinkWalk.linked_enter hd w.index x).1 hx)) ?_ (by rintro _ _ _ ⟨⟩)
    intro w' hw' x hx hout
    obtain rfl := List.mem_singleton.1 hw'
    obtain ⟨hne, hout⟩ := List.forall_mem_cons.1 hout
    refine hpassed x ((List.mem_cons.1 hx).resolve_left (Ne.symm hne)) (hframes ▸ ?_)
    simpa using hout
  | @meet m d q requests rest hframes _ _ =>
    refine hall (fun x hx ↦ .inl (hx.congr (LinkWalk.status?_leave _ m d x).symm)) ?_ (by rintro _ _ _ ⟨⟩)
    intro w' hw' x hx hout
    obtain rfl := List.mem_singleton.1 hw'
    refine hpassed x hx (hframes ▸ ?_)
    simpa using hout

/-- The body of a module has taken its steps. -/
theorem Vetted.setUp (hv : M.Vetted) (h : M.Interlinked) {r : Result} {m : ModuleId} {w : LinkWalk}
    {fs : List Frame} {x : Store × Next} (hnext : M.next? = some x) (hcontrol : M.control = .give r)
    (hframes : M.frames = .setUp m w :: fs) (hresumes : w.Resumes M.store r m x)
    (hkeep : ∀ y, M.store.Old y → M.store.Resolved y → x.1.Resolved y) : M.step.Vetted := by
  have hall := hv.next h hnext hkeep
  have hsetUp : Frame.setUp m w ∈ M.frames := hframes ▸ List.mem_cons_self
  have hw : ({ w with frames := ⟨m, []⟩ :: w.frames } : LinkWalk) ∈ M.linkWalks :=
    List.mem_append_right _ (List.mem_flatMap.2 ⟨_, hsetUp, List.mem_singleton.2 rfl⟩)
  have hlinking : ∀ y ∈ w.stack, M.store.status? y = some .linking := fun _ hy ↦
    linking_of_mem_linkWalks h hw hy
  cases hresumes with
  | failed _ => exact hall (fun y hy ↦ .inl ((Store.linked_unlink hlinking).1 hy)) (by rintro _ ⟨⟩) (by rintro _ _ _ ⟨⟩)
  | done _ =>
    have hlinkage : Linkage M.store (w.tourAt m :: (fs.flatMap Frame.linkWalks).map LinkWalk.tour) := by
      have hl := h.upward.linkage
      rw [← M.map_linkWalks, linkWalks, current, hcontrol, hframes] at hl
      exact hl
    have hconcludes := (h.linking.tidy _ hw).conclude hlinkage
    -- what the walk is through with is resolved already, and so is the module itself
    have hpassed : ∀ y ∈ w.stack, (∀ f ∈ w.frames, f.module ≠ y) →
        (w.conclude M.store m).1.Resolved y := fun y hy hout ↦ by
      refine hkeep y (Store.old_of_linking (hlinking y hy)) ?_
      by_cases hym : m = y
      · exact hym ▸ hv.setUps m w hsetUp
      · exact hv.passed _ hw y hy (List.forall_mem_cons.2 ⟨hym, hout⟩)
    have hpath : ∀ f ∈ w.frames, f.module ∈ (w.conclude M.store m).2.stack := fun f hf ↦
      hconcludes.tidy.mem (LinkWalk.frames_conclude M.store w m ▸ hf)
    refine hall (fun y hy ↦ ?_) (fun w' hw' y hy hout ↦ ?_) (by rintro _ _ _ ⟨⟩)
    · rw [Store.linked_iff, hconcludes.status] at hy
      split at hy
      · next hpopped =>
        exact .inr (hpassed y hpopped.1 fun f hf heq ↦ hpopped.2 (heq ▸ hpath f hf))
      · exact .inl (Store.linked_iff.2 hy)
    · obtain rfl := List.mem_singleton.1 hw'
      rw [LinkWalk.frames_conclude] at hout
      exact hpassed y (hconcludes.subset hy) hout

/-- Modules are linked only after their names have been resolved. -/
theorem Vetted.step (hv : M.Vetted) (h : M.Interlinked) (hP : M.LinksApart M.step) :
    M.step.Vetted := by
  rcases hnext : M.next? with _ | out
  · rwa [step_of_next?_eq_none hnext]
  have hstore : M.step.store = out.1 := by rw [step_of_next? hnext, store_apply]
  have hkeep : ∀ x, M.store.Old x → M.store.Resolved x → out.1.Resolved x := fun x hold hx ↦ by
    rw [← hstore]
    have hcharted : (State.busy .job M).Charted := h.charted
    exact hcharted.turn_resolved (.step hP.fair) hold hx
  have hall := hv.next h hnext hkeep
  have hproceeds := h.proceeds hP hnext
  cases hproceeds with
  | link hcontrol hbegins =>
    cases hbegins with
    | refused message _ => exact hall (fun x hx ↦ .inl hx) (by rintro _ ⟨⟩) (by rintro _ _ _ ⟨⟩)
    | enter hm =>
      refine hall (fun x hx ↦ .inl ((LinkWalk.linked_enter hm 0 x).1 hx)) ?_ (by rintro _ _ _ ⟨⟩)
      intro w hw x hx hout
      obtain rfl := List.mem_singleton.1 hw
      exact absurd (List.mem_singleton.1 hx).symm (hout _ List.mem_cons_self)
    | linked _ =>
      refine hall (fun x hx ↦ .inl hx) ?_ (by rintro _ _ _ ⟨⟩)
      intro w hw x hx
      obtain rfl := List.mem_singleton.1 hw
      exact absurd hx List.not_mem_nil
  | walk hcontrol hadvances => exact hv.walk h hnext hcontrol hadvances hkeep
  | setUp hcontrol hframes hresumes => exact hv.setUp h hnext hcontrol hframes hresumes hkeep
  | beside hskirts _ hwalks _ =>
    refine hall (fun x hx ↦ .inl ((hskirts.linked x).1 hx)) ?_ ?_
    · intro w hw
      exact absurd (hwalks ▸ hw) List.not_mem_nil
    · intro t m w hn
      rw [hn] at hwalks
      exact absurd (List.append_eq_nil_iff.1 hwalks).2 (List.cons_ne_nil _ _)

end Machine

namespace State

variable {st st' : State}

/-- The same between calls. -/
def Vetted : State → Prop
  | .idle s => ∀ m, s.Linked m → s.Resolved m
  | .busy _ M => M.Vetted

theorem Vetted.turn (hv : st.Vetted) (h : st.Interlinked) (ht : Turn Machine.LinksApart st st') :
    st'.Vetted := by
  have hfair := ht.mono fun _ _ ↦ Machine.LinksApart.fair
  have hkeep : st.Charted → ∀ x, st.store.Old x → st.store.Resolved x → st'.store.Resolved x :=
    fun hcharted x hold hx ↦ hcharted.turn_resolved hfair hold hx
  cases ht with
  | @call s a st' ha =>
    have hkeep := hkeep h.1
    -- no status changes, and nothing is linked yet
    have hidle : (∀ x, st'.store.status? x = s.status? x) → ∀ x, st'.store.Linked x →
        st'.store.Resolved x := fun hstatus x hx ↦ by
      have hx := hx.congr (hstatus x).symm
      exact hkeep x hx.old (hv x hx)
    cases a with
    | namespaceOf m phase =>
      obtain rfl := Option.some.inj ha
      exact hidle (s.namespaceOf_apart m phase).steady.status
    | settle label c =>
      obtain ⟨p, -, rfl⟩ := Option.map_eq_some_iff.1 ha
      have hsource := Store.source?_congr (s.modules_settle p c)
      exact hidle fun x ↦ congrArg (Option.map SourceText.status) (hsource x)
    | job =>
      simp only [Act.begin] at ha
      split at ha
      · contradiction
      · obtain rfl := Option.some.inj ha
        exact ⟨hidle fun _ ↦ rfl, fun _ h ↦ (by cases h), fun _ _ h ↦ (by cases h)⟩
    | _ =>
      obtain rfl := Option.some.inj ha
      exact ⟨hidle fun _ ↦ rfl, fun _ h ↦ (by cases h), fun _ _ h ↦ (by cases h)⟩
  | step hP => exact Machine.Vetted.step hv h hP
  | @consult a M q s hq hs =>
    have hkeep := hkeep (Machine.Interlinked.charted h)
    have hstatus := hs.aside.steady.status
    refine ⟨fun x hx ↦ ?_, fun w hw x hx hout ↦ ?_, fun m w hf ↦ ?_⟩
    · have hx := hx.congr (hstatus x).symm
      exact hkeep x hx.old (Machine.Vetted.linked hv x hx)
    · have hlinking := Machine.linking_of_mem_linkWalks h hw hx
      exact hkeep x (Store.old_of_linking hlinking) (Machine.Vetted.passed hv w hw x hx hout)
    · have hlinking := Machine.linking_of_setUp h hf
      exact hkeep m (Store.old_of_linking hlinking) (Machine.Vetted.setUps hv m w hf)
  | @answer a M q as hq =>
    obtain ⟨s, control, fs⟩ := M
    obtain rfl : control = _ := Machine.control_of_question? hq
    obtain ⟨hlinked, hpassed, hsetUps⟩ : (Machine.mk s _ fs).Vetted := hv
    exact ⟨hlinked, hpassed, hsetUps⟩
  | finish => exact fun x hx ↦ Machine.Vetted.linked hv x hx

theorem Vetted.turns {s : Store} (hs : (State.idle s).Vetted) (h : (State.idle s).Interlinked)
    (ht : Turns Machine.LinksApart (.idle s) st) : st.Vetted := by
  induction ht with
  | refl => exact hs
  | tail hst ht ih => exact ih.turn (h.turns hst) ht

end State

theorem Store.Unread.vetted (h : s.Unread) : (State.idle s).Vetted := fun m hm ↦ by
  rcases hr : s.source? m with _ | r
  · refine ⟨Store.complaint?_eq_none_iff.2 ?_, by simp [hr]⟩
    simp [Store.entries, hr]
  · have hle := hm r hr
    rw [(h.source m r hr).1] at hle
    exact absurd hle (by decide)

end EcmaModules
