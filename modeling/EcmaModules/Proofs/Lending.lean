import EcmaModules.Proofs.Pledges
import EcmaModules.Proofs.Landing

/-!
# What bodies, loading and walks settle

Reading from namespaces and linking have nothing to do with promises. Bodies, jobs and loading
operations settle what they were given and hand it on. Walks settle nothing before they end; the
promise that they give to a module to be executed is a new one.
-/

namespace EcmaModules

namespace Store

/-! ## Reading and linking -/

theorem duties_throw (s : Store) (kind : ErrorKind) (message : String) :
    (s.throw kind message).2.duties = s.duties := rfl

theorem duties_namespaceOf (s : Store) (m : ModuleId) (phase : Phase) :
    (s.namespaceOf m phase).2.duties = s.duties := by
  unfold namespaceOf
  split <;> rfl

theorem duties_variableValue (s : Store) (m : ModuleId) (name : String) :
    (s.variableValue m name).2.duties = s.duties := by
  unfold variableValue
  split <;> rfl

theorem duties_bindingValueFrom (s : Store) (depth : Nat) (m : ModuleId) (name : String) :
    (s.bindingValueFrom depth m name).2.duties = s.duties := by
  induction depth generalizing m name with
  | zero => rfl
  | succ depth ih =>
    unfold bindingValueFrom
    split
    · rfl
    · exact ih _ _
    · unfold ownValue
      split
      · rfl
      · exact s.duties_variableValue m name

theorem duties_readExport (s : Store) (n : NamespaceId) (name : String) :
    (s.readExport n name).2.duties = s.duties := by
  unfold readExport
  split
  · rfl
  · split
    · rfl
    · split
      · exact s.duties_bindingValueFrom _ _ _
      · exact s.duties_namespaceOf _ _
      · rfl

theorem duties_operandValue (s : Store) (v : Operand) :
    (s.operandValue v).2.duties = s.duties := by
  unfold operandValue
  split
  · rfl
  · split
    · exact s.duties_namespaceOf _ _
    · rfl

theorem duties_localValue (s : Store) (m : ModuleId) (name : String) :
    (s.localValue m name).2.duties = s.duties := by
  unfold localValue
  split
  · exact s.duties_variableValue m name
  · split
    · rfl
    · exact s.duties_namespaceOf _ _
    · exact (duties_readExport _ _ _).trans (s.duties_namespaceOf _ _)

theorem duties_localNamespace (s : Store) (m : ModuleId) (name : String) :
    (s.localNamespace m name).2.duties = s.duties := by
  have h := s.duties_localValue m name
  unfold localNamespace
  split <;> next heq => rw [heq] at h; exact h

theorem duties_setExport (s : Store) (m : ModuleId) (name : String) (v : Value) :
    (s.setExport m name v).2.duties = s.duties := by
  unfold setExport
  split <;> rfl

theorem duties_bindImport (s : Store) (target : ModuleId) (i : ImportEntry) :
    (s.bindImport target i).2.duties = s.duties := by
  unfold bindImport
  split
  · exact s.duties_namespaceOf _ _
  · split
    · exact s.duties_namespaceOf _ _
    · rfl
    · rfl

theorem duties_bindImports (m : ModuleId) (is : List ImportEntry) (s : Store)
    (env : List (String × ImportBinding)) : (s.bindImports m is env).2.duties = s.duties := by
  induction is generalizing s env with
  | nil => rfl
  | cons i rest ih =>
    unfold bindImports
    split
    · exact ih s env
    · next target _ =>
      have h := s.duties_bindImport target i
      split <;> next heq =>
        rw [heq] at h
        first | exact (ih _ _).trans h | exact h

theorem duties_initializeEnvironment (s : Store) (m : ModuleId) :
    (s.initializeEnvironment m).2.duties = s.duties := by
  unfold initializeEnvironment
  split
  · rfl
  · next r _ =>
    split
    · rfl
    · have h := duties_bindImports m r.entries.imports s []
      split <;> next heq => rw [heq] at h; exact h

theorem duties_foldl {α : Type} {f : Store → α → Store} (hf : ∀ s a, (f s a).duties = s.duties)
    (l : List α) (s : Store) : (l.foldl f s).duties = s.duties := by
  induction l generalizing s with
  | nil => rfl
  | cons a l ih => exact (ih _).trans (hf s a)

end Store

namespace LinkWalk

theorem duties_popComponent (root : ModuleId) (stack : List ModuleId) (s : Store) :
    (popComponent s root stack).1.duties = s.duties := by
  induction stack generalizing s with
  | nil => rfl
  | cons m stack ih =>
    unfold popComponent
    dsimp only
    split
    · rfl
    · exact ih _

theorem duties_leave (s : Store) (m required : ModuleId) :
    (leave s m required).duties = s.duties := by
  unfold leave
  split
  · split <;> rfl
  · rfl

theorem duties_conclude (s : Store) (w : LinkWalk) (m : ModuleId) :
    (conclude s w m).1.duties = s.duties := by
  have hpop : (if s.isComponentRoot m then popComponent s m w.stack else (s, w.stack)).1.duties =
      s.duties := by
    split
    · exact duties_popComponent m w.stack s
    · rfl
  unfold conclude
  split
  next heq =>
    rw [heq] at hpop
    dsimp only
    split
    · exact (duties_leave _ _ _).trans hpop
    · exact hpop

theorem duties_enter (s : Store) (w : LinkWalk) (m : ModuleId) :
    (enter s w m).1.duties = s.duties := by
  unfold enter
  split <;> rfl

end LinkWalk

/-- What comes next of a walk that links settles no promise. -/
theorem LinkStep.next_duties (s : Store) (step : LinkStep) :
    (step.next s).1.duties = s.duties ∧ (step.next s).2.targets = [] := by
  cases step with
  | failed e stack =>
    have hset : ∀ (s : Store) m, (s.setStatus m .unlinked).duties = s.duties := fun _ _ ↦ rfl
    exact ⟨Store.duties_foldl hset stack s, rfl⟩
  | _ => exact ⟨rfl, rfl⟩

theorem LinkWalk.advance_duties (s : Store) (w : LinkWalk) :
    (w.advance s).1.duties = s.duties := by
  unfold LinkWalk.advance
  split
  · rfl
  · next m rest _ =>
    have h := s.duties_initializeEnvironment m
    split <;> next heq => rw [heq] at h; exact h
  · next m r requests rest _ =>
    dsimp only
    split
    · rfl
    · next d _ =>
      have h := duties_enter s { w with frames := ⟨m, requests⟩ :: rest } d
      split <;> next heq =>
        rw [heq] at h
        first | exact h | exact (duties_leave _ _ _).trans h

theorem Task.link_duties (s : Store) (m : ModuleId) :
    (Task.advance s (.link m)).1.duties = s.duties ∧
      (Task.advance s (.link m)).2.targets = [] := by
  have hstart : (s.startLinking m).2.duties = s.duties := by
    have h := LinkWalk.duties_enter s {} m
    unfold Store.startLinking
    split
    · rfl
    · rfl
    · split <;> next heq => rw [heq] at h; exact h
  simp only [Task.advance]
  split <;> next heq => rw [heq] at hstart; exact ⟨hstart, rfl⟩

theorem Frame.setUp_duties (s : Store) (r : Result) (m : ModuleId) (w : LinkWalk) :
    (Frame.resume s r (.setUp m w)).1.duties = s.duties ∧
      (Frame.resume s r (.setUp m w)).2.targets = [] := by
  simp only [Frame.resume]
  split
  · exact ⟨LinkWalk.duties_conclude s w m, rfl⟩
  · exact LinkStep.next_duties s _

/-! ## Bodies -/

variable {E : Fund} {s s' : Store}

namespace Body

variable {b : Body}

theorem putOff_deals (h : s.Trusts E) {capability p : PromiseId} (hc : s.Lends E [capability]) :
    s.Deals E (putOff s b capability p) :=
  .react h p hc

theorem withNamespace_deals (h : s.Trusts E) (b : Body) (name : String)
    {f : Store → NamespaceId → Store × StepResult}
    (hf : ∀ s n, (f s n).1.duties = s.duties) : s.Deals E (withNamespace s b name f).1 := by
  have hlocal := s.duties_localNamespace b.module name
  unfold withNamespace
  split
  · next heq =>
    rw [heq] at hlocal
    exact .of_duties h ((hf _ _).trans hlocal)
  · next heq =>
    rw [heq] at hlocal
    exact .of_duties h hlocal

/-- A step of a body settles no other promises than that of the body, and hands it on. -/
theorem take_deals (h : s.Trusts E) (hb : s.Lends E b.mode.capability?.toList) (step : Step) :
    s.Deals E (take s b step).1 := by
  have hsame : ∀ {s' : Store}, s'.duties = s.duties → s.Deals E s' := .of_duties h
  have hcapability : ∀ {p}, b.mode.capability? = some p → s.Lends E [p] := fun hp ↦ by
    rwa [hp] at hb
  cases step with
  | print text => exact hsame rfl
  | declareFunction name => exact hsame rfl
  | init name operand => exact hsame (s.duties_operandValue operand)
  | await =>
    simp only [take]
    split
    · exact hsame rfl
    · next p hp =>
      have hsettled := Store.Deals.settledPromise h (.ok ())
      exact hsettled.trans (putOff_deals hsettled.trusts ((hcapability hp).mono hsettled.grows))
  | suspend label =>
    simp only [take]
    split
    · exact hsame rfl
    · next p hp =>
      obtain ⟨hnew, hlends⟩ := Store.Deals.newPromise h
      have hlabel := hnew.trans (.suspend hnew.trusts hlends label)
      exact hlabel.trans (putOff_deals hlabel.trusts ((hcapability hp).mono hlabel.grows))
  | read space name => exact withNamespace_deals h b space fun _ _ ↦ rfl
  | probe space name => exact withNamespace_deals h b space fun _ _ ↦ rfl
  | has space name => exact withNamespace_deals h b space fun _ _ ↦ rfl
  | keys space => exact withNamespace_deals h b space fun _ _ ↦ rfl
  | binding name =>
    have hlocal := s.duties_localValue b.module name
    simp only [take]
    split <;> next heq => rw [heq] at hlocal; exact hsame hlocal
  | expose space => exact withNamespace_deals h b space fun _ _ ↦ rfl
  | exposeModule name phase =>
    simp only [take]
    split
    · exact hsame (s.duties_namespaceOf _ _)
    · exact hsame rfl
  | readExposed name => simp only [take]; split <;> exact hsame rfl
  | link name => simp only [take]; split <;> exact hsame rfl
  | evaluate name => simp only [take]; split <;> exact hsame rfl
  | status name => simp only [take]; split <;> exact hsame rfl
  | setExport name exported operand =>
    have hoperand := s.duties_operandValue operand
    simp only [take]
    split
    · rw [afterCompletion_fst]
      exact hsame ((Store.duties_setExport _ _ _ _).trans hoperand)
    · exact hsame hoperand
  | setOwn name operand =>
    simp only [take, afterCompletion_fst]
    exact hsame ((Store.duties_setExport _ _ _ _).trans (s.duties_operandValue operand))
  | throw kind message => exact hsame rfl
  | reject kind message =>
    simp only [take]
    split
    · next p hp =>
      have hthrow : s.Deals E (s.throw kind message).2 := hsame rfl
      exact hthrow.trans (.settle hthrow.trusts ((hcapability hp).mono hthrow.grows) _)
    · exact hsame rfl
  | resolve =>
    simp only [take]
    split
    · next p hp => exact .settle h (hcapability hp) _
    · exact hsame rfl

theorem finish_deals (h : s.Trusts E) (hb : s.Lends E b.mode.capability?.toList)
    (c : Completion) : s.Deals E (b.finish s c).2 := by
  unfold finish
  split
  · next p _ hmode =>
    rw [hmode] at hb
    exact .settle h hb _
  · next p _ hmode =>
    rw [hmode] at hb
    exact .settle h hb _
  · exact .refl h

/-- Whatever comes next is lent only what the body was. -/
theorem advance_deals (h : s.Trusts E) (hb : s.Lends E b.mode.capability?.toList) :
    s.Deals E (b.advance s).1 ∧ (b.advance s).1.Lends E (b.advance s).2.targets := by
  unfold advance
  split
  · exact ⟨finish_deals h hb _, nofun⟩
  · next step rest _ =>
    have htake := take_deals (b := { b with steps := rest }) h hb step
    have hlends := hb.mono htake.grows
    dsimp only
    split <;> next heq =>
      rw [heq] at htake hlends
      first
        | exact ⟨htake, hlends⟩
        | exact ⟨htake, nofun⟩
        | exact ⟨htake.trans (finish_deals (b := { b with steps := rest }) htake.trusts hlends _),
            nofun⟩

end Body

/-! ## Loading -/

/-- What may become of a loading operation that goes on. -/
structure Loading.Continues (r r' : Loading) : Prop where
  promise : r'.promise = r.promise
  isLoading : r'.isLoading = r.isLoading
  falls : r.pending ≤ r'.pending + 1
  stays : 1 ≤ r.pending → 1 ≤ r'.pending

/-- What becomes of a loading operation that ends. -/
structure Loading.Concludes (r r' : Loading) : Prop where
  promise : r'.promise = r.promise
  isLoading : r'.isLoading = false
  falls : r.pending ≤ r'.pending + 1

theorem Loading.Continues.refl (r : Loading) : r.Continues r := ⟨rfl, rfl, r.pending.le_succ, id⟩

namespace Store

variable {l : LoadingId} {f g : Loading → Loading} {s'' : Store}

theorem loading?_modifyLoading (s : Store) (l : LoadingId) (f : Loading → Loading) (x : LoadingId) :
    (s.modifyLoading l f).loading? x = if x = l then (s.loading? x).map f else s.loading? x := by
  obtain ⟨i⟩ := l
  obtain ⟨j⟩ := x
  simp only [loading?, modifyLoading, Array.getElem?_modify, LoadingId.mk.injEq, eq_comm]

theorem loading?_congr (h : s'.loadings = s.loadings) (l : LoadingId) :
    s'.loading? l = s.loading? l := by
  simp only [loading?, h]

theorem isLoading_iff : s.isLoading l = true ↔ ∃ r, s.loading? l = some r ∧ r.isLoading = true := by
  simp [isLoading, Option.any_eq_true]

/-- One loading operation changes, and nobody comes to wait or is done with waiting. -/
structure Alters (l : LoadingId) (f : Loading → Loading) (s s' : Store) : Prop where
  promises : s'.promises = s.promises
  jobs : s'.jobs = s.jobs
  suspended : s'.stage.suspended = s.stage.suspended
  loading? : ∀ x, s'.loading? x = if x = l then (s.loading? x).map f else s.loading? x

namespace Alters

theorem modifyLoading (s : Store) (l : LoadingId) (f : Loading → Loading) :
    Alters l f s (s.modifyLoading l f) := ⟨rfl, rfl, rfl, s.loading?_modifyLoading l f⟩

theorem of_duties (hd : s'.duties = s.duties) : Alters l id s s' := by
  simp only [duties, Prod.mk.injEq] at hd
  obtain ⟨hpromises, hjobs, hsuspended, hloadings, -⟩ := hd
  refine ⟨hpromises, hjobs, hsuspended, fun x ↦ ?_⟩
  rw [loading?_congr hloadings, Option.map_id_apply, ite_self]

theorem trans (h : Alters l f s s') (h' : Alters l g s' s'') : Alters l (g ∘ f) s s'' := by
  refine ⟨h'.promises.trans h.promises, h'.jobs.trans h.jobs, h'.suspended.trans h.suspended,
    fun x ↦ ?_⟩
  rw [h'.loading?, h.loading?]
  split
  · exact Option.map_map g f _
  · rfl

theorem self {r : Loading} (h : Alters l f s s') (hr : s.loading? l = some r) :
    s'.loading? l = some (f r) := by
  rw [h.loading?, if_pos rfl, hr, Option.map_some]

theorem deals (h : Alters l f s s') (ht : s.Trusts E)
    (hf : ∀ r, s.loading? l = some r → (f r).promise = r.promise) : s.Deals E s' := by
  refine .of_eq ht h.promises (h.jobs ▸ List.Subset.refl _) h.suspended fun x r' hr' ↦ ?_
  rw [h.loading?] at hr'
  split at hr'
  · next hx =>
    obtain ⟨r, hr, rfl⟩ := Option.map_eq_some_iff.1 hr'
    exact ⟨r, hr, (hf r (hx ▸ hr)).symm⟩
  · exact ⟨r', hr', rfl⟩

end Alters

/-- What one step of a loading operation does: it goes on, or it ends and settles its promise. -/
inductive Works (l : LoadingId) (s : Store) : Store → Prop where
  | alter {s' : Store} {f : Loading → Loading} : Alters l f s s' →
      (∀ r, s.loading? l = some r → r.Continues (f r)) → Works l s s'
  | conclude {s' : Store} {f : Loading → Loading} {r : Loading} (c : Completion) :
      s.loading? l = some r → r.isLoading = true → Alters l f s s' → r.Concludes (f r) →
      Works l s (s'.settle r.promise c)

namespace Works

theorem of_duties (hd : s'.duties = s.duties) : Works l s s' :=
  .alter (.of_duties hd) fun r _ ↦ .refl r

/-- A change before the step that is nothing to the operation's end. -/
theorem after (h : Alters l f s s') (hf : ∀ r, s.loading? l = some r →
      (f r).promise = r.promise ∧ (f r).isLoading = r.isLoading ∧ (f r).pending = r.pending)
    (hw : Works l s' s'') : Works l s s'' := by
  cases hw with
  | @alter _ g h' hg =>
    refine .alter (h.trans h') fun r hr ↦ ?_
    obtain ⟨hp, hl, hn⟩ := hf r hr
    obtain ⟨hp', hl', hfalls, hstays⟩ := hg (f r) (h.self hr)
    exact ⟨hp'.trans hp, hl'.trans hl, hn ▸ hfalls, hn ▸ hstays⟩
  | @conclude s₁ g r' c hr' hlr h' hg =>
    obtain ⟨r, hr, rfl⟩ : ∃ r, s.loading? l = some r ∧ f r = r' := by
      rw [h.loading?, if_pos rfl] at hr'
      exact Option.map_eq_some_iff.1 hr'
    obtain ⟨hp, hl, hn⟩ := hf r hr
    rw [hp]
    exact .conclude c hr (hl ▸ hlr) (h.trans h') ⟨hg.promise.trans hp, hg.isLoading, hn ▸ hg.falls⟩

theorem upholds (h : Works l s s') (ht : s.Trusts E) : s.Upholds E s' := by
  cases h with
  | alter h hf => exact .of_deals (h.deals ht fun r hr ↦ (hf r hr).promise)
  | conclude c hr hlr h hf =>
    have hover := Upholds.of_deals (h.deals ht fun r' hr' ↦ by
      rw [← Option.some.inj (hr.symm.trans hr')]
      exact hf.promise)
    exact hover.trans (.settle hover.trusts _ c)

/-- An operation settles no other promise than its own. -/
theorem deals (h : Works l s s') (ht : s.Trusts E)
    (hl : ∀ r, s.loading? l = some r → s.Lends E [r.promise]) : s.Deals E s' := by
  cases h with
  | alter h hf => exact h.deals ht fun r hr ↦ (hf r hr).promise
  | conclude c hr hlr h hf =>
    have hover := h.deals ht fun r' hr' ↦ by
      rw [← Option.some.inj (hr.symm.trans hr')]
      exact hf.promise
    exact hover.trans (.settle hover.trusts ((hl _ hr).mono hover.grows) c)

end Works

/-! ### Steps of an operation -/

theorem visit_works (s : Store) (l : LoadingId) (m : ModuleId) : Works l s (s.visit l m) := by
  refine .alter (.modifyLoading s l _) fun r _ ↦ ⟨rfl, rfl, ?_, fun h ↦ ?_⟩
  · exact Nat.le_succ_of_le (Nat.le_add_right _ _)
  · exact Nat.le_trans h (Nat.le_add_right _ _)

theorem finishDescent_works (hl : s.isLoading l = true) : Works l s (s.finishDescent l) := by
  obtain ⟨r, hr, hlr⟩ := isLoading_iff.1 hl
  unfold finishDescent
  simp only [hr]
  split
  · next hlast =>
    have hless := Alters.modifyLoading s l fun r ↦ { r with pending := r.pending - 1 }
    have hover := hless.trans
      (.modifyLoading _ l fun r ↦ { r with isLoading := false, visited := [] })
    refine .conclude (.ok ()) hr hlr (hover.trans (.of_duties ?_)) ⟨rfl, rfl, ?_⟩
    · exact duties_foldl (f := markLoaded) (fun _ _ ↦ rfl) r.visited _
    · exact Nat.le_trans (Nat.le_of_eq hlast) (Nat.le_add_left 1 _)
  · next hmore =>
    refine .alter (.modifyLoading s l _) fun r' hr' ↦ ?_
    obtain rfl := Option.some.inj (hr.symm.trans hr')
    refine ⟨rfl, rfl, ?_, fun h ↦ ?_⟩
    · exact Nat.sub_le_iff_le_add.1 (Nat.le_refl _)
    · exact Nat.le_sub_one_of_lt (Nat.lt_of_le_of_ne h (Ne.symm hmore))

theorem failLoading_works (hl : s.isLoading l = true) (e : ErrorId) :
    Works l s (s.failLoading l e) := by
  obtain ⟨r, hr, hlr⟩ := isLoading_iff.1 hl
  simp only [failLoading, hr]
  exact .conclude (.error e) hr hlr (.modifyLoading s l _) ⟨rfl, rfl, r.pending.le_succ⟩

theorem duties_recordLoaded (s : Store) (call : LoadCall) (m : ModuleId) :
    (s.recordLoaded call m).2.duties = s.duties := by
  unfold recordLoaded
  split
  · split <;> rfl
  · rfl

/-- When an answer is checked, an operation at most no longer waits for a request. -/
theorem checkAnswer_alters (s : Store) (a : LoadAnswer) :
    ∃ f, Alters a.call.loading f s (s.checkAnswer a).2 ∧ ∀ r : Loading,
      (f r).promise = r.promise ∧ (f r).isLoading = r.isLoading ∧ (f r).pending = r.pending := by
  unfold checkAnswer
  split
  · have htaken : Alters a.call.loading _ s (s.takeOutstanding a.call) := .modifyLoading s _ _
    dsimp only
    split
    · exact ⟨_, htaken.trans (.of_duties (duties_recordLoaded _ _ _)), fun _ ↦ ⟨rfl, rfl, rfl⟩⟩
    · exact ⟨_, htaken, fun _ ↦ ⟨rfl, rfl, rfl⟩⟩
  · exact ⟨id, .of_duties rfl, fun _ ↦ ⟨rfl, rfl, rfl⟩⟩

end Store

theorem LoadWalk.from_works {l : LoadingId} (hl : s.isLoading l = true) (m : ModuleId) :
    s.Works l (LoadWalk.from s l m).1 := by
  unfold LoadWalk.from
  split
  · exact s.visit_works l m
  · exact Store.finishDescent_works hl

theorem Store.takeAnswer_works (s : Store) (a : LoadAnswer) :
    s.Works a.call.loading (s.takeAnswer a).1 := by
  obtain ⟨f, hcheck, hf⟩ := s.checkAnswer_alters a
  unfold takeAnswer
  split
  next outcome s' heq =>
    rw [heq] at hcheck
    split
    · refine .alter hcheck fun r _ ↦ ?_
      obtain ⟨hp, hl, hn⟩ := hf r
      exact ⟨hp, hl, hn ▸ r.pending.le_succ, fun h ↦ hn ▸ h⟩
    · next hl =>
      replace hl : s'.isLoading a.call.loading = true := by simpa using hl
      split
      · exact .after hcheck (fun r _ ↦ hf r) (LoadWalk.from_works hl _)
      · exact .after hcheck (fun r _ ↦ hf r) (failLoading_works hl _)

theorem LoadWalk.advance_works (s : Store) (w : LoadWalk) : s.Works w.loading (w.advance s).1 := by
  unfold LoadWalk.advance
  split
  · exact .of_duties rfl
  · next hl =>
    replace hl : s.isLoading w.loading = true := by simpa using hl
    split
    · exact .of_duties rfl
    · exact Store.finishDescent_works hl
    · dsimp only
      split
      · split
        · exact s.visit_works _ _
        · exact Store.finishDescent_works hl
      · exact .alter (.modifyLoading s _ _) fun r _ ↦ ⟨rfl, rfl, r.pending.le_succ, id⟩

/-- The promise of a loading operation is one that others than evaluation may settle. -/
theorem Store.Trusts.lends_loading (h : s.Trusts E) {l : LoadingId} (hK : E.loadings l)
    (r : Loading) (hl : s.loading? l = some r) : s.Lends E [r.promise] :=
  List.forall_mem_singleton.2 (h.entrusts _ (.loading hK hl rfl))

theorem Store.startLoading_deals (h : s.Trusts E) (m : ModuleId) (hostDefined : Option String) :
    s.Deals E (s.startLoading m hostDefined).2.2 := by
  obtain ⟨hnew, hlends⟩ := Store.Deals.newPromise h
  have hadd := Store.Deals.addLoading hnew.trusts
    (r := { promise := s.newPromise.1, hostDefined := hostDefined }) hlends
  have hstarted := hnew.trans hadd
  have hself : Store.loading? { s.newPromise.2 with
      loadings := s.loadings.push { promise := s.newPromise.1, hostDefined := hostDefined } }
      ⟨s.loadings.size⟩ = some { promise := s.newPromise.1, hostDefined := hostDefined } :=
    Array.getElem?_push_size
  have hfrom := LoadWalk.from_works (Store.isLoading_iff.2 ⟨_, hself, rfl⟩) m
  refine hstarted.trans (hfrom.deals hstarted.trusts fun r hr ↦ ?_)
  rw [← Option.some.inj (hself.symm.trans hr)]
  exact hlends.mono hadd.grows

theorem LoadStep.targets_next (s : Store) (step : LoadStep) : (step.next s).2.targets = [] := by
  cases step <;> rfl

/-! ## Tasks, frames and jobs -/

theorem Watch.run_deals (h : s.Trusts E) {w : Watch}
    (hw : s.Lends E (w.resolve.toList ++ w.settle.toList)) (c : Completion) :
    s.Deals E (w.run s c).2 := by
  obtain ⟨hresolve, hsettle⟩ := List.forall_mem_append.1 hw
  have hthen : ∀ {s : Store}, s.Trusts E → s.Lends E w.resolve.toList →
      s.Deals E (w.resolve.elim s s.resolve) := fun h hlends ↦ by
    cases hr : w.resolve with
    | none => exact .refl h
    | some p => exact .settle h (by rwa [hr] at hlends) _
  have hlast : ∀ {s : Store}, s.Trusts E → s.Lends E w.settle.toList →
      s.Deals E (w.settle.elim s fun p ↦ s.settle p c) := fun h hlends ↦ by
    cases hr : w.settle with
    | none => exact .refl h
    | some p => exact .settle h (by rwa [hr] at hlends) _
  have hprint : ∀ line, s.Deals E (s.print line) := fun _ ↦ .of_duties h rfl
  have hends : ∀ {s' : Store}, s.Deals E s' →
      s.Deals E (w.settle.elim (w.resolve.elim s' s'.resolve) fun p ↦
        (w.resolve.elim s' s'.resolve).settle p c) := fun h₁ ↦ by
    have h₂ := h₁.trans (hthen h₁.trusts (Store.Lends.mono hresolve h₁.grows))
    exact h₂.trans (hlast h₂.trusts (Store.Lends.mono hsettle h₂.grows))
  simp only [Watch.run]
  cases w.chain with
  | none => exact hends (hprint _)
  | some label => exact hends ((hprint _).trans (.react (hprint _).trusts _ (List.forall_mem_nil _)))

/-- A job by which evaluation does not go on. -/
theorem Job.run_deals (h : s.Trusts E) {j : Job} (hj : ∀ m, j.reaction ≠ .completeModule m)
    (hlends : s.Lends E j.reaction.targets) :
    s.Deals E (j.run s).1 ∧ (j.run s).1.Lends E (j.run s).2.targets := by
  obtain ⟨reaction, c⟩ := j
  cases reaction with
  | completeModule m => exact absurd rfl (hj m)
  | resumeBody m capability rest =>
    rcases c with e | ⟨⟩
    · exact ⟨.settle h hlends _, nofun⟩
    · exact ⟨.refl h, hlends⟩
  | answerLoad call => exact ⟨.refl h, nofun⟩
  | watch w => exact ⟨w.run_deals h hlends c, nofun⟩
  | note label => rcases c with e | ⟨⟩ <;> exact ⟨.of_duties h rfl, nofun⟩

/-- The loading operation that a task goes on with. -/
def Task.operation? : Task → Option LoadingId
  | .loading w => some w.loading
  | .answers (a :: _) => some a.call.loading
  | _ => none

theorem Task.advance_deals (h : s.Trusts E) {t : Task} (ht : t.isWalk = false)
    (hlends : s.Lends E t.targets) (hK : ∀ l, t.operation? = some l → E.loadings l) :
    s.Deals E (t.advance s).1 ∧ (t.advance s).1.Lends E (t.advance s).2.targets := by
  cases t with
  | body b => exact Body.advance_deals h hlends
  | read n name =>
    simp only [Task.advance, Store.read]
    split
    · exact ⟨.refl h, List.forall_mem_nil _⟩
    · exact ⟨.of_duties h (s.duties_readExport n name), List.forall_mem_nil _⟩
  | synthetic m =>
    have hstart : (s.startSynthetic m).2.duties = s.duties := by
      unfold Store.startSynthetic
      split
      · rfl
      · split <;> rfl
    simp only [Task.advance]
    split <;> next heq => rw [heq] at hstart; exact ⟨.of_duties h hstart, List.forall_mem_nil _⟩
  | load m hostDefined =>
    simp only [Task.advance]
    split
    · exact ⟨.settledPromise h _, List.forall_mem_nil _⟩
    · exact ⟨s.startLoading_deals h m hostDefined, List.forall_mem_nil _⟩
  | loading w =>
    refine ⟨?_, ?_⟩
    · simp only [Task.advance, (LoadStep.next_quiet _ _).1]
      exact (w.advance_works s).deals h (h.lends_loading (hK _ rfl))
    · simp only [Task.advance, LoadStep.targets_next]
      rintro _ ⟨⟩
  | ask q => exact ⟨.refl h, List.forall_mem_nil _⟩
  | answers as =>
    rcases as with _ | ⟨a, rest⟩
    · exact ⟨.refl h, List.forall_mem_nil _⟩
    · have hanswer := (s.takeAnswer_works a).deals h (h.lends_loading (hK _ rfl))
      simp only [Task.advance]
      split <;> next heq => rw [heq] at hanswer; exact ⟨hanswer, List.forall_mem_nil _⟩
  | _ => contradiction

theorem Frame.resume_deals (h : s.Trusts E) (r : Result) {f : Frame} (hf : f.isWalk = false)
    (hlends : s.Lends E f.targets) :
    s.Deals E (f.resume s r).1 ∧ (f.resume s r).1.Lends E (f.resume s r).2.targets := by
  cases f with
  | bodyRead b label probe =>
    simp only [Frame.resume]
    split
    · exact ⟨.of_duties h rfl, hlends⟩
    · exact ⟨.of_duties h rfl, hlends⟩
    · exact ⟨Body.finish_deals h hlends _, List.forall_mem_nil _⟩
    · exact ⟨.refl h, hlends⟩
  | bodyLink b name =>
    simp only [Frame.resume]
    split <;> exact ⟨.of_duties h rfl, hlends⟩
  | bodyEvaluate b name =>
    simp only [Frame.resume]
    split
    · exact ⟨.of_duties h rfl, hlends⟩
    · exact ⟨.refl h, hlends⟩
  | readForced n name =>
    simp only [Frame.resume]
    split
    · exact ⟨.of_duties h (s.duties_readExport n name), List.forall_mem_nil _⟩
    · exact ⟨.refl h, List.forall_mem_nil _⟩
  | syntheticSteps m => exact ⟨.of_duties h rfl, List.forall_mem_nil _⟩
  | syntheticPromise => exact ⟨.settledPromise h _, List.forall_mem_nil _⟩
  | loadPromise p => exact ⟨.refl h, List.forall_mem_nil _⟩
  | asked w => exact ⟨.refl h, List.forall_mem_nil _⟩
  | moreAnswers as => exact ⟨.refl h, List.forall_mem_nil _⟩
  | _ => contradiction

theorem Consults.deals (h : s.Trusts E) (hs : Consults s s') : s.Deals E s' := by
  cases hs with
  | throw kind message => exact .of_duties h rfl
  | print line => exact .of_duties h rfl
  | putOff call =>
    have hsettled := Store.Deals.settledPromise h (.ok ())
    exact hsettled.trans (.react hsettled.trusts _ nofun)

/-! ## Walks -/

namespace EvaluationWalk

theorem duties_await (s : Store) (m d : ModuleId) : (await s m d).duties = s.duties := by
  unfold await
  split
  · split <;> rfl
  · rfl

theorem duties_detach (s : Store) (w : EvaluationWalk) (m : ModuleId) :
    (detach s w m).duties = s.duties := by
  unfold detach
  split <;> rfl

theorem duties_leave (s : Store) (m d : ModuleId) : (leave s m d).2.duties = s.duties := by
  unfold leave
  split
  · split
    · exact duties_await _ m d
    · split
      · exact duties_await s m d
      · dsimp only
        split
        · rfl
        · exact duties_await s m _
  · rfl

theorem duties_back (s : Store) (w : EvaluationWalk) (d : ModuleId) :
    (back s w d).1.duties = s.duties := by
  unfold back
  split
  · rfl
  · next f _ _ =>
    have h := duties_leave s f.module d
    split <;> next heq => rw [heq] at h; exact h

theorem duties_popExecuted (root : ModuleId) (stack : List ModuleId) (s : Store) :
    (popExecuted s root stack).1.duties = s.duties := by
  induction stack generalizing s with
  | nil => rfl
  | cons m stack ih =>
    rw [popExecuted]
    split
    · rfl
    · exact ih _

theorem duties_popSearched (root : ModuleId) (stack : List ModuleId) (s : Store) :
    (popSearched s root stack).1.duties = s.duties := by
  induction stack generalizing s with
  | nil => rfl
  | cons m stack ih =>
    rw [popSearched]
    split
    · rfl
    · exact ih _

theorem duties_concludeExecuted (s : Store) (w : EvaluationWalk) (m : ModuleId) :
    (concludeExecuted s w m).1.duties = s.duties := by
  unfold concludeExecuted
  split
  · exact (duties_back _ _ m).trans (duties_popExecuted m w.stack s)
  · exact duties_back s w m

theorem duties_concludeSearched (s : Store) (w : EvaluationWalk) (m : ModuleId) :
    (concludeSearched s w m).1.duties = s.duties := by
  rw [concludeSearched_eq]
  split
  · exact (duties_back _ _ m).trans (duties_popSearched m w.stack _)
  · exact duties_back _ w m

theorem duties_push (s : Store) (w : EvaluationWalk) (m : ModuleId) (t : Traversal) :
    (push s w m t).1.duties = s.duties := rfl

theorem duties_arrive (s : Store) (w : EvaluationWalk) (m : ModuleId) (t : Traversal) :
    (arrive s w m t).1.duties = s.duties := by
  unfold arrive
  split
  · rfl
  · split
    · rfl
    · refine (duties_back _ w m).trans ?_
      split
      · exact duties_detach s w m
      · rfl
    · rfl

end EvaluationWalk

/-- The promise that a module to be executed is given. -/
def EvaluationStep.targets : EvaluationStep → List PromiseId
  | .execute _ capability _ => capability.toList
  | _ => []

theorem Store.startAsync_deals (h : s.Trusts E) (m : ModuleId) :
    s.Deals E (s.startAsync m).2 ∧ (s.startAsync m).2.Lends E [(s.startAsync m).1] := by
  have hhold : s.Deals E (s.modifySource m fun r ↦ { r with asyncState := .pending }) :=
    .of_duties h rfl
  obtain ⟨hnew, hlends⟩ := Store.Deals.newPromise hhold.trusts
  have hreact := Store.Deals.react hnew.trusts
    (s.modifySource m fun r ↦ { r with asyncState := .pending }).newPromise.1
    (r := .completeModule m) nofun
  exact ⟨(hhold.trans hnew).trans hreact, hlends.mono hreact.grows⟩

namespace EvaluationWalk

variable {w : EvaluationWalk} {m : ModuleId}

theorem targets_back : (back s w m).2.targets = [] := by
  unfold back
  split
  · rfl
  · split <;> rfl

theorem targets_concludeExecuted : (concludeExecuted s w m).2.targets = [] := by
  unfold concludeExecuted
  split <;> exact targets_back

theorem targets_concludeSearched : (concludeSearched s w m).2.targets = [] := by
  rw [concludeSearched_eq]
  split <;> exact targets_back

theorem targets_arrive {t : Traversal} : (arrive s w m t).2.targets = [] := by
  unfold arrive
  split
  · rfl
  · split
    · rfl
    · exact targets_back
    · rfl

theorem execute_deals (h : s.Trusts E) (w : EvaluationWalk) (m : ModuleId) :
    s.Deals E (execute s w m).1 ∧ (execute s w m).1.Lends E (execute s w m).2.targets := by
  unfold execute
  split
  · exact ⟨.refl h, nofun⟩
  · split
    · rw [targets_concludeExecuted]
      exact ⟨.of_duties h (duties_concludeExecuted _ w m), nofun⟩
    · split
      · exact s.startAsync_deals h m
      · exact ⟨.refl h, nofun⟩

theorem executed_deals (h : s.Trusts E) (w : EvaluationWalk) (m : ModuleId)
    {capability : Option PromiseId} (hlends : s.Lends E capability.toList) (c : Completion) :
    s.Deals E (w.executed s m capability c).1 ∧ (w.executed s m capability c).2.targets = [] := by
  unfold executed
  split
  · exact ⟨.of_duties h (duties_concludeExecuted s w m), targets_concludeExecuted⟩
  · next e p =>
    have hreject : s.Deals E (s.reject p e) := .settle h hlends _
    exact ⟨hreject.trans (.of_duties hreject.trusts (duties_concludeExecuted _ w m)),
      targets_concludeExecuted⟩
  · exact ⟨.refl h, rfl⟩

theorem passed_deals (h : s.Trusts E) (w : EvaluationWalk) (c : Completion) :
    s.Deals E (w.passed s c).1 ∧ (w.passed s c).2.targets = [] := by
  unfold passed
  split <;> exact ⟨.refl h, rfl⟩

theorem advance_deals (h : s.Trusts E) (w : EvaluationWalk) :
    s.Deals E (w.advance s).1 ∧ (w.advance s).1.Lends E (w.advance s).2.targets := by
  unfold advance
  split
  · exact ⟨.refl h, nofun⟩
  · exact execute_deals h _ _
  · rw [targets_concludeSearched]
    exact ⟨.of_duties h (duties_concludeSearched s _ _), nofun⟩
  · dsimp only
    split
    · rw [targets_arrive]
      exact ⟨.of_duties h (duties_arrive s _ _ _), nofun⟩
    · exact ⟨.refl h, nofun⟩

end EvaluationWalk

end EcmaModules
