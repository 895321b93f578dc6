import EcmaModules.Exports
import Mathlib

/-!
# What an exported name denotes

The text of a module says what each of its exported names stands for: a variable of its own, the
namespace of another module, what another module exports by a name, or whatever the modules behind its
star exports have by the same name. That fixes what a name denotes: one follows the re-exports wherever
they lead, in circles, too, and collects what is offered at the ends.

The look-up goes depth first, and what was met on one branch counts as met on the later ones, although
only the first of them gets to see what was found there. Nothing is lost by that. Whatever is found
anywhere comes all the way up, since a name found to be ambiguous stays so, and a star export that finds
nothing new agrees with those before it. So when the look-up ends with a single binding, every name that
was met has been looked through, and has offered nothing but that binding.

## The look-up without a bound

The look-up carries a bound on its depth, for the sake of recursion. `Finds` is the look-up without it.
That it has a derivation for every name of every module is what it means for the look-up to end, and
the bound is large enough for the two to agree: there are only so many names of modules to be met.
-/

namespace EcmaModules

/-- A variable of a module, or the namespace of the module. -/
abbrev Denotation := ModuleId × Option String

/-- What can be looked up: a name of a module, or a name behind the star exports that are left, with
what was found behind the earlier ones. -/
inductive LookUp where
  | name (p : ModuleId × String)
  | stars (targets : List ModuleId) (name : String) (found : Resolution)

namespace Store

/-! ## What a name denotes -/

/-- The module itself has what the name denotes. -/
inductive Offers (s : Store) : ModuleId × String → Denotation → Prop
  | synthetic {m : ModuleId} {r : Synthetic} {name : String} (hm : s.synthetic? m = some r)
      (hname : name ∈ r.exportNames) : s.Offers (m, name) (m, some name)
  | own {m : ModuleId} {r : SourceText} {name : String} {e : LocalExport}
      (hm : s.source? m = some r)
      (hown : r.entries.localExports.find? (·.exported == name) = some e) :
      s.Offers (m, name) (m, some e.localName)
  | namespaceOf {m target : ModuleId} {r : SourceText} {name : String} {e : IndirectExport}
      (hm : s.source? m = some r)
      (hown : r.entries.localExports.find? (·.exported == name) = none)
      (hindirect : r.entries.indirectExports.find? (·.exported == name) = some e)
      (hall : e.imported = none) (ht : s.imported? m e.request = some target) :
      s.Offers (m, name) (target, none)

/-- The name of the module stands for whatever the other module has by the other name. -/
inductive Follows (s : Store) : ModuleId × String → ModuleId × String → Prop
  | renamed {m target : ModuleId} {r : SourceText} {name imported : String} {e : IndirectExport}
      (hm : s.source? m = some r)
      (hown : r.entries.localExports.find? (·.exported == name) = none)
      (hindirect : r.entries.indirectExports.find? (·.exported == name) = some e)
      (hname : e.imported = some imported) (ht : s.imported? m e.request = some target) :
      s.Follows (m, name) (target, imported)
  | star {m target : ModuleId} {r : SourceText} {name : String} {request : Request}
      (hm : s.source? m = some r)
      (hown : r.entries.localExports.find? (·.exported == name) = none)
      (hindirect : r.entries.indirectExports.find? (·.exported == name) = none)
      (hdefault : name ≠ "default") (hr : request ∈ r.entries.starExports)
      (ht : s.imported? m request = some target) : s.Follows (m, name) (target, name)

/-- The name of the module denotes a variable or a namespace: one gets there by following. -/
inductive Denotes (s : Store) : ModuleId × String → Denotation → Prop
  | offer {p : ModuleId × String} {v : Denotation} (h : s.Offers p v) : s.Denotes p v
  | follow {p q : ModuleId × String} {v : Denotation} (h : s.Follows p q) (hq : s.Denotes q v) :
      s.Denotes p v

/-- All that a name of a module denotes. -/
def denoted (s : Store) (m : ModuleId) (name : String) : Set Denotation :=
  {v | s.Denotes (m, name) v}

/-- The other store has the same modules with the same exports, but for the order of the star exports
of each of them. -/
structure ReordersStars (s s' : Store) : Prop where
  synthetic : ∀ m, s'.synthetic? m = s.synthetic? m
  source : ∀ m, Option.Rel (fun r r' : SourceText ↦
    r'.entries.localExports = r.entries.localExports ∧
      r'.entries.indirectExports = r.entries.indirectExports ∧
      r'.entries.starExports.Perm r.entries.starExports) (s.source? m) (s'.source? m)
  imported : ∀ m request, s'.imported? m request = s.imported? m request

/-! ## The look-up without a bound -/

/-- The look-up ends, given what was met before, with a resolution and what has been met then. -/
inductive Finds (s : Store) : LookUp → List (ModuleId × String) → Resolution →
    List (ModuleId × String) → Prop
  | synthetic {m : ModuleId} {r : Synthetic} {name : String} {met : List (ModuleId × String)}
      (hm : s.synthetic? m = some r) :
      s.Finds (.name (m, name)) met
        (if r.exportNames.contains name then .binding m (some name) else .missing) met
  | absent {m : ModuleId} {name : String} {met : List (ModuleId × String)}
      (hm : s.module? m = none) : s.Finds (.name (m, name)) met .missing met
  | again {m : ModuleId} {r : SourceText} {name : String} {met : List (ModuleId × String)}
      (hm : s.source? m = some r) (hmet : (m, name) ∈ met) :
      s.Finds (.name (m, name)) met .missing met
  | own {m : ModuleId} {r : SourceText} {name : String} {met : List (ModuleId × String)}
      {e : LocalExport} (hm : s.source? m = some r) (hmet : (m, name) ∉ met)
      (hown : r.entries.localExports.find? (·.exported == name) = some e) :
      s.Finds (.name (m, name)) met (.binding m (some e.localName)) ((m, name) :: met)
  | namespaceOf {m target : ModuleId} {r : SourceText} {name : String}
      {met : List (ModuleId × String)} {e : IndirectExport} (hm : s.source? m = some r)
      (hmet : (m, name) ∉ met)
      (hown : r.entries.localExports.find? (·.exported == name) = none)
      (hindirect : r.entries.indirectExports.find? (·.exported == name) = some e)
      (hall : e.imported = none) (ht : s.imported? m e.request = some target) :
      s.Finds (.name (m, name)) met (.binding target none) ((m, name) :: met)
  | unloaded {m : ModuleId} {r : SourceText} {name : String} {met : List (ModuleId × String)}
      {e : IndirectExport} (hm : s.source? m = some r) (hmet : (m, name) ∉ met)
      (hown : r.entries.localExports.find? (·.exported == name) = none)
      (hindirect : r.entries.indirectExports.find? (·.exported == name) = some e)
      (ht : s.imported? m e.request = none) :
      s.Finds (.name (m, name)) met .missing ((m, name) :: met)
  | renamed {m target : ModuleId} {r : SourceText} {name imported : String}
      {met met' : List (ModuleId × String)} {e : IndirectExport} {found : Resolution}
      (hm : s.source? m = some r) (hmet : (m, name) ∉ met)
      (hown : r.entries.localExports.find? (·.exported == name) = none)
      (hindirect : r.entries.indirectExports.find? (·.exported == name) = some e)
      (hname : e.imported = some imported) (ht : s.imported? m e.request = some target)
      (hfound : s.Finds (.name (target, imported)) ((m, name) :: met) found met') :
      s.Finds (.name (m, name)) met found met'
  | default {m : ModuleId} {r : SourceText} {met : List (ModuleId × String)}
      (hm : s.source? m = some r) (hmet : (m, "default") ∉ met)
      (hown : r.entries.localExports.find? (·.exported == "default") = none)
      (hindirect : r.entries.indirectExports.find? (·.exported == "default") = none) :
      s.Finds (.name (m, "default")) met .missing ((m, "default") :: met)
  | behind {m : ModuleId} {r : SourceText} {name : String} {met met' : List (ModuleId × String)}
      {found : Resolution} (hm : s.source? m = some r) (hmet : (m, name) ∉ met)
      (hown : r.entries.localExports.find? (·.exported == name) = none)
      (hindirect : r.entries.indirectExports.find? (·.exported == name) = none)
      (hdefault : name ≠ "default")
      (hfound : s.Finds (.stars (r.entries.starExports.filterMap (s.imported? m)) name .missing)
        ((m, name) :: met) found met') :
      s.Finds (.name (m, name)) met found met'
  | done {name : String} {met : List (ModuleId × String)} {found : Resolution} :
      s.Finds (.stars [] name found) met found met
  | clash {t : ModuleId} {ts : List ModuleId} {name : String} {met met' : List (ModuleId × String)}
      {found more : Resolution} (hmore : s.Finds (.name (t, name)) met more met')
      (hjoin : joinStars found more = .ambiguous) :
      s.Finds (.stars (t :: ts) name found) met .ambiguous met'
  | join {t : ModuleId} {ts : List ModuleId} {name : String}
      {met met₁ met' : List (ModuleId × String)} {found more last : Resolution}
      (hmore : s.Finds (.name (t, name)) met more met₁)
      (hjoin : joinStars found more ≠ .ambiguous)
      (hlast : s.Finds (.stars ts name (joinStars found more)) met₁ last met') :
      s.Finds (.stars (t :: ts) name found) met last met'

/-! ## What joining resolutions keeps -/

end Store

namespace Resolution

/-- The resolution is a binding, and this one. -/
def Is (r : Resolution) (v : Denotation) : Prop := r = .binding v.1 v.2

theorem Is.eq {r : Resolution} {v w : Denotation} (hv : r.Is v) (hw : r.Is w) : v = w := by
  obtain ⟨h₁, h₂⟩ := Resolution.binding.inj (Eq.trans (Eq.symm hv) hw)
  exact Prod.ext h₁ h₂

theorem binding_is {m : ModuleId} {n : Option String} {v : Denotation} :
    (binding m n).Is v ↔ v = (m, n) :=
  ⟨fun h ↦ Is.eq h rfl, by rintro rfl; rfl⟩

theorem Is.ne_ambiguous {r : Resolution} {v : Denotation} (hv : r.Is v) : r ≠ .ambiguous := by
  rintro rfl
  cases hv

end Resolution

/-- All that is denoted by what is looked up. -/
def LookUp.denoted (s : Store) : LookUp → Set Denotation
  | .name p => {v | s.Denotes p v}
  | .stars targets n found => {v | found.Is v ∨ ∃ t ∈ targets, s.Denotes (t, n) v}

/-- The look-up goes on. -/
def LookUp.Goes : LookUp → Prop
  | .name _ => True
  | .stars _ _ found => found ≠ .ambiguous

namespace Store

variable {s s' : Store} {found more r : Resolution} {v : Denotation} {p q : ModuleId × String}
  {met met' met₁ : List (ModuleId × String)} {l : LookUp}

theorem more_ne_ambiguous (h : joinStars found more ≠ .ambiguous) : more ≠ .ambiguous := by
  rintro rfl
  cases found <;> exact h rfl

theorem joinStars_binding (v w : Denotation) :
    joinStars (.binding v.1 v.2) (.binding w.1 w.2) =
      if v = w then .binding v.1 v.2 else .ambiguous := by
  simp [joinStars, Prod.ext_iff]

/-- A binding that was found before is still there. -/
theorem joinStars_left (h : joinStars found more ≠ .ambiguous) (hv : found.Is v) :
    (joinStars found more).Is v := by
  subst hv
  cases more with
  | missing => rfl
  | ambiguous => exact absurd rfl h
  | binding m n =>
    rw [joinStars_binding v (m, n)] at h ⊢
    exact if_pos (of_not_not fun hne ↦ h (if_neg hne))

/-- A binding that is found now is there, unless the name is ambiguous. -/
theorem joinStars_right (h : joinStars found more ≠ .ambiguous) (hv : more.Is v) :
    (joinStars found more).Is v := by
  subst hv
  cases found with
  | missing => rfl
  | ambiguous => exact absurd rfl h
  | binding m n =>
    rw [joinStars_binding (m, n) v] at h ⊢
    have heq : (m, n) = v := of_not_not fun hne ↦ h (if_neg hne)
    rw [if_pos heq, ← heq]
    rfl

/-- Nothing else is there. -/
theorem of_joinStars (hv : (joinStars found more).Is v) : found.Is v ∨ more.Is v := by
  have h := hv.ne_ambiguous
  cases found with
  | missing =>
    cases more with
    | missing => exact .inr hv
    | ambiguous => exact absurd rfl h
    | binding m n => exact .inr hv
  | ambiguous => exact absurd rfl h
  | binding m n =>
    have hleft : (joinStars (.binding m n) more).Is (m, n) := joinStars_left h rfl
    exact .inl (hleft.eq hv ▸ rfl)

/-- Two resolutions that are not ambiguous clash because they are different bindings. -/
theorem exists_ne_of_clash (hfound : found ≠ .ambiguous) (hmore : more ≠ .ambiguous)
    (h : joinStars found more = .ambiguous) : ∃ v w, v ≠ w ∧ found.Is v ∧ more.Is w := by
  cases found with
  | missing => cases more <;> first | exact absurd rfl hmore | cases h
  | ambiguous => exact absurd rfl hfound
  | binding m n =>
    cases more with
    | missing => cases h
    | ambiguous => exact absurd rfl hmore
    | binding m' n' =>
      refine ⟨(m, n), (m', n'), fun heq ↦ ?_, rfl, rfl⟩
      rw [joinStars_binding (m, n) (m', n'), if_pos heq] at h
      cases h

/-! ## Every look-up ends -/

/-- What was met stays met. -/
theorem Finds.subset (h : s.Finds l met r met') : met ⊆ met' := by
  induction h with
  | synthetic | absent | again | done => exact List.Subset.refl _
  | own | namespaceOf | unloaded | default => exact List.subset_cons_self _ _
  | renamed _ _ _ _ _ _ _ ih | behind _ _ _ _ _ _ ih =>
    exact List.Subset.trans (List.subset_cons_self _ _) ih
  | clash _ _ ih => exact ih
  | join _ _ _ ih₁ ih₂ => exact List.Subset.trans ih₁ ih₂

/-- The members of a finite set that have not been met. -/
def unmet {α : Type} [DecidableEq α] (U : Finset α) (met : List α) : ℕ :=
  {p ∈ U | p ∉ met}.card

theorem unmet_mono {α : Type} [DecidableEq α] {U : Finset α} {met met' : List α} (h : met ⊆ met') :
    unmet U met' ≤ unmet U met :=
  Finset.card_le_card (Finset.monotone_filter_right _ fun _ _ hp hmem ↦ hp (h hmem))

theorem unmet_cons_lt {α : Type} [DecidableEq α] {U : Finset α} {met : List α} {p : α} (hU : p ∈ U)
    (h : p ∉ met) : unmet U (p :: met) < unmet U met := by
  refine Finset.card_lt_card (Finset.ssubset_iff_of_subset ?_ |>.2 ⟨p, ?_, ?_⟩)
  · exact Finset.monotone_filter_right _ fun _ _ hq hmem ↦ hq (List.mem_cons_of_mem _ hmem)
  · exact Finset.mem_filter.2 ⟨hU, h⟩
  · exact fun hmem ↦ (Finset.mem_filter.1 hmem).2 List.mem_cons_self

/-- The star exports are gone through if every name behind them can be looked up. -/
theorem finds_resolveStars {look : ModuleId → List (ModuleId × String) →
    Resolution × List (ModuleId × String)} {name : String} {ts : List ModuleId} {found : Resolution}
    (h : ∀ t ∈ ts, ∀ met', met ⊆ met' →
      s.Finds (.name (t, name)) met' (look t met').1 (look t met').2) :
    s.Finds (.stars ts name found) met (resolveStars look ts found met).1
      (resolveStars look ts found met).2 := by
  induction ts generalizing found met with
  | nil => exact .done
  | cons t ts ih =>
    have hmore := h t List.mem_cons_self met (List.Subset.refl _)
    by_cases hjoin : joinStars found (look t met).1 = .ambiguous
    · have heq : resolveStars look (t :: ts) found met = (.ambiguous, (look t met).2) := by
        simp only [resolveStars, hjoin]
      rw [heq]
      exact .clash hmore hjoin
    · have heq : resolveStars look (t :: ts) found met =
          resolveStars look ts (joinStars found (look t met).1) (look t met).2 := by
        simp only [resolveStars]
      rw [heq]
      refine .join hmore hjoin (ih fun t' ht' met' hmet' ↦ ?_)
      exact h t' (List.mem_cons_of_mem t ht') met' (List.Subset.trans hmore.subset hmet')

/-- A look-up with a bound that is larger than the number of names left to be met ends. -/
theorem finds_resolveExportFrom {U : Finset (ModuleId × String)}
    (hU : ∀ p ∈ U, ∀ q, s.Follows p q → (s.source? q.1).isSome → q ∈ U) {depth : ℕ} {m : ModuleId}
    {name : String} (hm : (s.source? m).isSome → (m, name) ∈ U) (hdepth : unmet U met < depth) :
    s.Finds (.name (m, name)) met (s.resolveExportFrom depth m name met).1
      (s.resolveExportFrom depth m name met).2 := by
  induction depth generalizing m name met with
  | zero => exact absurd hdepth (Nat.not_lt_zero _)
  | succ depth ih =>
    cases hmod : s.module? m with
    | none =>
      simp only [resolveExportFrom, hmod]
      exact .absent hmod
    | some module =>
      obtain ⟨r | r, realm, hostDefined, namespaceId, deferredId, bindings⟩ := module
      · have hsource : s.source? m = some r := by simp only [source?, hmod]
        have hmem : (m, name) ∈ U := hm (by rw [hsource]; rfl)
        by_cases hmet : (m, name) ∈ met
        · have hcontains : met.contains (m, name) = true := List.contains_iff_mem.2 hmet
          simp only [resolveExportFrom, hmod, hcontains, if_true]
          exact .again hsource hmet
        have hcontains : met.contains (m, name) = false := by simpa using hmet
        have hless : unmet U ((m, name) :: met) < depth :=
          (unmet_cons_lt hmem hmet).trans_le (Nat.le_of_lt_succ hdepth)
        -- the name has not been met, so there is one less to be met behind it
        have hnext : ∀ {q met'}, s.Follows (m, name) q → (m, name) :: met ⊆ met' →
            s.Finds (.name q) met' (s.resolveExportFrom depth q.1 q.2 met').1
              (s.resolveExportFrom depth q.1 q.2 met').2 := fun hq hmet' ↦
          ih (hU _ hmem _ hq) ((unmet_mono hmet').trans_lt hless)
        simp only [resolveExportFrom, hmod, hcontains, Bool.false_eq_true, if_false]
        cases hown : r.entries.localExports.find? (·.exported == name) with
        | some e => exact .own hsource hmet hown
        | none =>
          cases hindirect : r.entries.indirectExports.find? (·.exported == name) with
          | some e =>
            cases ht : s.imported? m e.request with
            | none =>
              simp only [ht]
              exact .unloaded hsource hmet hown hindirect ht
            | some target =>
              cases hname : e.imported with
              | none =>
                simp only [ht, hname]
                exact .namespaceOf hsource hmet hown hindirect hname ht
              | some imported =>
                simp only [ht, hname]
                exact .renamed hsource hmet hown hindirect hname ht
                  (hnext (.renamed hsource hown hindirect hname ht) (List.Subset.refl _))
          | none =>
            by_cases hdefault : name = "default"
            · subst hdefault
              simp only [if_true]
              exact .default hsource hmet hown hindirect
            · simp only [hdefault, if_false]
              refine .behind hsource hmet hown hindirect hdefault
                (finds_resolveStars fun t ht met' hmet' ↦ ?_)
              obtain ⟨request, hr, ht⟩ := List.mem_filterMap.1 ht
              exact hnext (.star hsource hown hindirect hdefault hr ht) hmet'
      · have hsynthetic : s.synthetic? m = some r := by simp only [synthetic?, hmod]
        simp only [resolveExportFrom, hmod]
        exact .synthetic hsynthetic

/-! ## The bound is large enough -/

/-- The names by which modules import what they export again. -/
def reexported (s : Store) : List String :=
  s.modules.toList.flatMap fun m ↦
    match m.content with
    | .sourceText r => r.entries.indirectExports.filterMap (·.imported)
    | .synthetic _ => []

/-- The names of modules that a look-up can come to. -/
def reachable (s : Store) (name : String) : Finset (ModuleId × String) :=
  (Finset.range s.modules.size).image ModuleId.mk ×ˢ insert name s.reexported.toFinset

theorem mem_modules_of_source? {m : ModuleId} {r : SourceText} (h : s.source? m = some r) :
    m.index < s.modules.size ∧ ∃ x ∈ s.modules.toList, x.content = .sourceText r := by
  unfold source? at h
  split at h
  · next hm =>
    obtain rfl := Option.some.inj h
    rw [module?, Array.getElem?_eq_some_iff] at hm
    obtain ⟨hlt, hget⟩ := hm
    exact ⟨hlt, _, Array.mem_toList_iff.2 (Array.getElem_mem hlt), by rw [hget]⟩
  · cases h

theorem mem_reachable {m : ModuleId} {name n : String} (hm : (s.source? m).isSome)
    (hn : n = name ∨ n ∈ s.reexported) : (m, n) ∈ s.reachable name := by
  obtain ⟨r, hr⟩ := Option.isSome_iff_exists.1 hm
  refine Finset.mem_product.2 ⟨Finset.mem_image.2 ⟨m.index, ?_, rfl⟩, ?_⟩
  · exact Finset.mem_range.2 (mem_modules_of_source? hr).1
  · exact Finset.mem_insert.2 (hn.imp_right List.mem_toFinset.2)

/-- Following leads to names of the set only. -/
theorem reachable_follows {name : String} (hp : p ∈ s.reachable name) (h : s.Follows p q)
    (hq : (s.source? q.1).isSome) : q ∈ s.reachable name := by
  cases h with
  | @renamed m target r n imported e hm hown hindirect hname ht =>
    refine mem_reachable hq (.inr ?_)
    obtain ⟨-, x, hx, hcontent⟩ := mem_modules_of_source? hm
    refine List.mem_flatMap.2 ⟨x, hx, ?_⟩
    rw [hcontent]
    exact List.mem_filterMap.2 ⟨e, List.mem_of_find?_eq_some hindirect, hname⟩
  | star hm hown hindirect hdefault hr ht =>
    have hn := (Finset.mem_product.1 hp).2
    exact mem_reachable hq ((Finset.mem_insert.1 hn).imp_right List.mem_toFinset.1)

/-- A count that takes in every list is not less than the length of all of them. -/
theorem add_length_flatMap_le {α β : Type} {f : ℕ → α → ℕ} {g : α → List β}
    (h : ∀ n a, n + (g a).length ≤ f n a) (l : List α) (n : ℕ) :
    n + (l.flatMap g).length ≤ l.foldl f n := by
  induction l generalizing n with
  | nil => exact Nat.le_refl n
  | cons a l ih =>
    rw [List.flatMap_cons, List.length_append, ← Nat.add_assoc, List.foldl_cons]
    exact (Nat.add_le_add_right (h n a) _).trans (ih _)

theorem card_reachable_lt (s : Store) (name : String) :
    (s.reachable name).card < s.resolutionDepth := by
  have hnames : (insert name s.reexported.toFinset).card ≤ s.reexported.length + 1 :=
    (Finset.card_insert_le _ _).trans (Nat.succ_le_succ (List.toFinset_card_le _))
  have hmodules : ((Finset.range s.modules.size).image ModuleId.mk).card ≤ s.modules.size :=
    Finset.card_image_le.trans (Finset.card_range _).le
  rw [reachable, Finset.card_product, resolutionDepth, ← Array.foldl_toList]
  refine Nat.lt_succ_of_le (Nat.mul_le_mul (hmodules.trans (Nat.le_succ _))
    (hnames.trans (Nat.succ_le_succ ?_)))
  rw [← Nat.zero_add s.reexported.length, reexported]
  refine add_length_flatMap_le (fun n m ↦ ?_) _ 0
  cases m.content with
  | sourceText r => exact Nat.add_le_add_left (List.length_filterMap_le _ _) n
  | synthetic r => exact Nat.le_refl n

/-- Every look-up of a name ends, and the bound does not cut it short. -/
theorem finds_resolveExport (s : Store) (m : ModuleId) (name : String) :
    ∃ met, s.Finds (.name (m, name)) [] (s.resolveExport m name) met := by
  have hunmet : unmet (s.reachable name) [] < s.resolutionDepth :=
    (Finset.card_filter_le _ _).trans_lt (s.card_reachable_lt name)
  exact ⟨_, finds_resolveExportFrom (fun _ hp _ ↦ reachable_follows hp)
    (fun hm ↦ mem_reachable hm (.inl rfl)) hunmet⟩

/-! ## What the text of a module says -/

theorem source?_eq_none_of_synthetic? {m : ModuleId} {r : Synthetic}
    (h : s.synthetic? m = some r) : s.source? m = none := by
  unfold synthetic? at h
  split at h
  · next hm => simp only [source?, hm]
  · cases h

theorem offers_iff {m : ModuleId} {r : SourceText} {name : String} (hm : s.source? m = some r) :
    s.Offers (m, name) v ↔
      (∃ e, r.entries.localExports.find? (·.exported == name) = some e ∧ v = (m, some e.localName)) ∨
      r.entries.localExports.find? (·.exported == name) = none ∧
        ∃ e, r.entries.indirectExports.find? (·.exported == name) = some e ∧ e.imported = none ∧
          ∃ target, s.imported? m e.request = some target ∧ v = (target, none) := by
  constructor
  · intro h
    cases h with
    | synthetic hm' => simp [source?_eq_none_of_synthetic? hm'] at hm
    | own hm' hown =>
      obtain rfl := Option.some.inj (hm.symm.trans hm')
      exact .inl ⟨_, hown, rfl⟩
    | namespaceOf hm' hown hindirect hall ht =>
      obtain rfl := Option.some.inj (hm.symm.trans hm')
      exact .inr ⟨hown, _, hindirect, hall, _, ht, rfl⟩
  · rintro (⟨e, hown, rfl⟩ | ⟨hown, e, hindirect, hall, target, ht, rfl⟩)
    · exact .own hm hown
    · exact .namespaceOf hm hown hindirect hall ht

theorem follows_iff {m : ModuleId} {r : SourceText} {name : String} (hm : s.source? m = some r) :
    s.Follows (m, name) q ↔ r.entries.localExports.find? (·.exported == name) = none ∧
      ((∃ e, r.entries.indirectExports.find? (·.exported == name) = some e ∧
          ∃ imported, e.imported = some imported ∧
            ∃ target, s.imported? m e.request = some target ∧ q = (target, imported)) ∨
        r.entries.indirectExports.find? (·.exported == name) = none ∧ name ≠ "default" ∧
          ∃ request ∈ r.entries.starExports,
            ∃ target, s.imported? m request = some target ∧ q = (target, name)) := by
  constructor
  · intro h
    cases h with
    | renamed hm' hown hindirect hname ht =>
      obtain rfl := Option.some.inj (hm.symm.trans hm')
      exact ⟨hown, .inl ⟨_, hindirect, _, hname, _, ht, rfl⟩⟩
    | star hm' hown hindirect hdefault hr ht =>
      obtain rfl := Option.some.inj (hm.symm.trans hm')
      exact ⟨hown, .inr ⟨hindirect, hdefault, _, hr, _, ht, rfl⟩⟩
  · rintro ⟨hown, ⟨e, hindirect, imported, hname, target, ht, rfl⟩ |
      ⟨hindirect, hdefault, request, hr, target, ht, rfl⟩⟩
    · exact .renamed hm hown hindirect hname ht
    · exact .star hm hown hindirect hdefault hr ht

/-! ## Nothing is found that is not denoted -/

/-- Whatever is found is denoted, and a name found to be ambiguous denotes several things. -/
theorem Finds.sound (h : s.Finds l met r met') (hl : l.Goes) :
    (∀ v, r.Is v → v ∈ l.denoted s) ∧ (r = .ambiguous → (l.denoted s).Nontrivial) := by
  induction h with
  | @synthetic m r name met hm =>
    split
    · next hname =>
      refine ⟨fun v hv ↦ ?_, by rintro ⟨⟩⟩
      obtain rfl := Resolution.binding_is.1 hv
      exact .offer (.synthetic hm (List.contains_iff_mem.1 hname))
    · exact ⟨by rintro v ⟨⟩, by rintro ⟨⟩⟩
  | absent | again | unloaded | default => exact ⟨by rintro v ⟨⟩, by rintro ⟨⟩⟩
  | own hm hmet hown =>
    refine ⟨fun v hv ↦ ?_, by rintro ⟨⟩⟩
    obtain rfl := Resolution.binding_is.1 hv
    exact .offer (.own hm hown)
  | namespaceOf hm hmet hown hindirect hall ht =>
    refine ⟨fun v hv ↦ ?_, by rintro ⟨⟩⟩
    obtain rfl := Resolution.binding_is.1 hv
    exact .offer (.namespaceOf hm hown hindirect hall ht)
  | renamed hm hmet hown hindirect hname ht hfound ih =>
    obtain ⟨hsound, hmany⟩ := ih trivial
    have hfollows := Follows.renamed hm hown hindirect hname ht
    exact ⟨fun v hv ↦ .follow hfollows (hsound v hv),
      fun hr ↦ (hmany hr).mono fun v ↦ .follow hfollows⟩
  | @behind m r name met met' found hm hmet hown hindirect hdefault hfound ih =>
    obtain ⟨hsound, hmany⟩ := ih (by rintro ⟨⟩)
    have hsub : ∀ v, v ∈ (LookUp.stars (r.entries.starExports.filterMap (s.imported? m)) name
        .missing).denoted s → s.Denotes (m, name) v := by
      rintro v (hv | ⟨t, ht, hv⟩)
      · cases hv
      · obtain ⟨request, hr, ht⟩ := List.mem_filterMap.1 ht
        exact .follow (.star hm hown hindirect hdefault hr ht) hv
    exact ⟨fun v hv ↦ hsub v (hsound v hv), fun hr ↦ (hmany hr).mono hsub⟩
  | done => exact ⟨fun v hv ↦ .inl hv, fun hr ↦ absurd hr hl⟩
  | @clash t ts name met met' found more hmore hjoin ih =>
    refine ⟨by rintro v ⟨⟩, fun _ ↦ ?_⟩
    obtain ⟨hsound, hmany⟩ := ih trivial
    have hsub : ∀ v, s.Denotes (t, name) v → v ∈ (LookUp.stars (t :: ts) name found).denoted s :=
      fun v hv ↦ .inr ⟨t, List.mem_cons_self, hv⟩
    by_cases hamb : more = .ambiguous
    · exact (hmany hamb).mono hsub
    · obtain ⟨v, w, hne, hv, hw⟩ := exists_ne_of_clash hl hamb hjoin
      exact ⟨v, .inl hv, w, hsub w (hsound w hw), hne⟩
  | @join t ts name met met₁ met' found more last hmore hjoin hlast ih₁ ih₂ =>
    obtain ⟨hsound₁, -⟩ := ih₁ trivial
    obtain ⟨hsound₂, hmany₂⟩ := ih₂ hjoin
    have hsub : ∀ v, v ∈ (LookUp.stars ts name (joinStars found more)).denoted s →
        v ∈ (LookUp.stars (t :: ts) name found).denoted s := by
      rintro v (hv | ⟨t', ht', hv⟩)
      · exact (of_joinStars hv).imp_right fun hv ↦ ⟨t, List.mem_cons_self, hsound₁ v hv⟩
      · exact .inr ⟨t', List.mem_cons_of_mem t ht', hv⟩
    exact ⟨fun v hv ↦ hsub v (hsound₂ v hv), fun hr ↦ (hmany₂ hr).mono hsub⟩

/-! ## Nothing that is denoted is lost -/

/-- Whatever the name denotes has been found, unless the name has been met and what it denotes is
left to those that met it. -/
def Covers (s : Store) (met : List (ModuleId × String)) (r : Resolution) (p : ModuleId × String) :
    Prop :=
  p ∈ met ∨ ∀ v, s.Denotes p v → r.Is v

/-- The names that were met in the course of the look-up have been looked through: what they offer
has been found, and where they lead is covered. -/
def Exhausts (s : Store) (met met' : List (ModuleId × String)) (r : Resolution) : Prop :=
  ∀ p ∈ met', p ∉ met → (∀ v, s.Offers p v → r.Is v) ∧ ∀ q, s.Follows p q → s.Covers met' r q

theorem Covers.mono (h : s.Covers met found p) (hmet : met ⊆ met') (hfound : ∀ v, found.Is v → r.Is v) :
    s.Covers met' r p :=
  h.imp (@hmet p) fun h v hv ↦ hfound v (h v hv)

theorem Exhausts.refl : s.Exhausts met met r := fun _ hp hnot ↦ absurd hp hnot

theorem Exhausts.trans (h : s.Exhausts met met₁ found) (h' : s.Exhausts met₁ met' r)
    (hmet : met₁ ⊆ met') (hfound : ∀ v, found.Is v → r.Is v) : s.Exhausts met met' r := by
  intro p hp hnot
  by_cases hp₁ : p ∈ met₁
  · obtain ⟨hoffers, hfollows⟩ := h p hp₁ hnot
    exact ⟨fun v hv ↦ hfound v (hoffers v hv), fun q hq ↦ (hfollows q hq).mono hmet hfound⟩
  · exact h' p hp hp₁

/-- One more name has been looked through. -/
theorem Exhausts.enter (h : s.Exhausts (p :: met) met' r) (hoffers : ∀ v, s.Offers p v → r.Is v)
    (hfollows : ∀ q, s.Follows p q → s.Covers met' r q) : s.Exhausts met met' r := by
  intro q hq hnot
  by_cases hqp : q = p
  · subst hqp
    exact ⟨hoffers, hfollows⟩
  · exact h q hq fun hmem ↦ (List.mem_cons.1 hmem).elim hqp hnot

/-- If no name had been met before, everything that a covered name denotes has been found. -/
theorem Exhausts.is_of_denotes (h : s.Exhausts [] met r) {v : Denotation} (hv : s.Denotes p v)
    (hp : s.Covers met r p) : r.Is v := by
  induction hv with
  | offer hoffers =>
    rcases hp with hmem | hall
    · exact (h _ hmem List.not_mem_nil).1 _ hoffers
    · exact hall _ (.offer hoffers)
  | follow hfollows hq ih =>
    rcases hp with hmem | hall
    · exact ih ((h _ hmem List.not_mem_nil).2 _ hfollows)
    · exact hall _ (.follow hfollows hq)

/-- A synthetic module offers what it exports, and leads nowhere. -/
theorem is_of_denotes_synthetic {m : ModuleId} {r : Synthetic} {name : String}
    (hm : s.synthetic? m = some r) (hv : s.Denotes (m, name) v) :
    Resolution.Is (if r.exportNames.contains name then .binding m (some name) else .missing) v := by
  have hsource := source?_eq_none_of_synthetic? hm
  cases hv with
  | offer hoffers =>
    cases hoffers with
    | synthetic hm' hname =>
      obtain rfl := Option.some.inj (hm.symm.trans hm')
      rw [if_pos (List.contains_iff_mem.2 hname)]
      rfl
    | own hm' | namespaceOf hm' => simp [hsource] at hm'
  | follow hfollows =>
    cases hfollows with
    | renamed hm' | star hm' => simp [hsource] at hm'

theorem not_denotes_of_absent {m : ModuleId} {name : String} (hm : s.module? m = none) :
    ¬s.Denotes (m, name) v := by
  have hsource : s.source? m = none := by simp only [source?, hm]
  have hsynthetic : s.synthetic? m = none := by simp only [synthetic?, hm]
  intro hv
  cases hv with
  | offer hoffers =>
    cases hoffers with
    | synthetic hm' => simp [hsynthetic] at hm'
    | own hm' | namespaceOf hm' => simp [hsource] at hm'
  | follow hfollows =>
    cases hfollows with
    | renamed hm' | star hm' => simp [hsource] at hm'

end Store

/-- What is covered when the look-up has ended. -/
def LookUp.Covered (s : Store) (met : List (ModuleId × String)) (r : Resolution) : LookUp → Prop
  | .name p => s.Covers met r p
  | .stars targets n found => (∀ v, found.Is v → r.Is v) ∧ ∀ t ∈ targets, s.Covers met r (t, n)

namespace Store

variable {s s' : Store} {l : LookUp} {r : Resolution} {met met' : List (ModuleId × String)}

/-- A look-up that does not find the name ambiguous looks through everything that it meets. -/
theorem Finds.complete (h : s.Finds l met r met') (hr : r ≠ .ambiguous) :
    s.Exhausts met met' r ∧ l.Covered s met' r := by
  induction h with
  | synthetic hm => exact ⟨.refl, .inr fun v hv ↦ is_of_denotes_synthetic hm hv⟩
  | absent hm => exact ⟨.refl, .inr fun v hv ↦ absurd hv (not_denotes_of_absent hm)⟩
  | again hm hmet => exact ⟨.refl, .inl hmet⟩
  | own hm hmet hown =>
    refine ⟨Exhausts.refl.enter (fun v hv ↦ ?_) (fun q hq ↦ ?_), .inl List.mem_cons_self⟩
    · simpa [Resolution.binding_is, hown] using (offers_iff hm).1 hv
    · simpa [hown] using (follows_iff hm).1 hq
  | namespaceOf hm hmet hown hindirect hall ht =>
    refine ⟨Exhausts.refl.enter (fun v hv ↦ ?_) (fun q hq ↦ ?_), .inl List.mem_cons_self⟩
    · simpa [Resolution.binding_is, hown, hindirect, hall, ht] using (offers_iff hm).1 hv
    · simpa [hown, hindirect, hall] using (follows_iff hm).1 hq
  | unloaded hm hmet hown hindirect ht =>
    refine ⟨Exhausts.refl.enter (fun v hv ↦ ?_) (fun q hq ↦ ?_), .inl List.mem_cons_self⟩
    · simpa [hown, hindirect, ht] using (offers_iff hm).1 hv
    · simpa [hown, hindirect, ht] using (follows_iff hm).1 hq
  | renamed hm hmet hown hindirect hname ht hfound ih =>
    obtain ⟨hexhausts, hcovers⟩ := ih hr
    refine ⟨hexhausts.enter (fun v hv ↦ ?_) (fun q hq ↦ ?_),
      .inl (hfound.subset List.mem_cons_self)⟩
    · simpa [hown, hindirect, hname] using (offers_iff hm).1 hv
    · obtain rfl : q = _ := by simpa [hown, hindirect, hname, ht] using (follows_iff hm).1 hq
      exact hcovers
  | default hm hmet hown hindirect =>
    refine ⟨Exhausts.refl.enter (fun v hv ↦ ?_) (fun q hq ↦ ?_), .inl List.mem_cons_self⟩
    · simpa [hown, hindirect] using (offers_iff hm).1 hv
    · simpa [hown, hindirect] using (follows_iff hm).1 hq
  | behind hm hmet hown hindirect hdefault hfound ih =>
    obtain ⟨hexhausts, -, hcovers⟩ := ih hr
    refine ⟨hexhausts.enter (fun v hv ↦ ?_) (fun q hq ↦ ?_),
      .inl (hfound.subset List.mem_cons_self)⟩
    · simpa [hown, hindirect] using (offers_iff hm).1 hv
    · obtain ⟨-, ⟨e, he, -⟩ | ⟨-, -, request, hr, target, ht, rfl⟩⟩ := (follows_iff hm).1 hq
      · simp [hindirect] at he
      · exact hcovers target (List.mem_filterMap.2 ⟨request, hr, ht⟩)
  | done => exact ⟨.refl, fun _ hv ↦ hv, List.forall_mem_nil _⟩
  | clash => exact absurd rfl hr
  | join hmore hjoin hlast ih₁ ih₂ =>
    obtain ⟨hexhausts₁, hcovers⟩ := ih₁ (more_ne_ambiguous hjoin)
    obtain ⟨hexhausts₂, hkept, hrest⟩ := ih₂ hr
    have hmore' : ∀ v, Resolution.Is _ v → Resolution.Is _ v := fun v hv ↦
      hkept v (joinStars_right hjoin hv)
    refine ⟨hexhausts₁.trans hexhausts₂ hlast.subset hmore',
      fun v hv ↦ hkept v (joinStars_left hjoin hv), List.forall_mem_cons.2 ⟨?_, hrest⟩⟩
    exact Covers.mono hcovers hlast.subset hmore'

/-! ## The resolution -/

/-- What a name resolves to, given all that it denotes. -/
theorem denoted_of_resolveExport (s : Store) (m : ModuleId) (name : String) :
    (s.resolveExport m name = .missing → s.denoted m name = ∅) ∧
      (∀ v, (s.resolveExport m name).Is v → s.denoted m name = {v}) ∧
      (s.resolveExport m name = .ambiguous → (s.denoted m name).Nontrivial) := by
  obtain ⟨met, h⟩ := s.finds_resolveExport m name
  obtain ⟨hsound, hmany⟩ := h.sound trivial
  have hall : s.resolveExport m name ≠ .ambiguous →
      ∀ v ∈ s.denoted m name, (s.resolveExport m name).Is v := fun hr v hv ↦ by
    obtain ⟨hexhausts, hcovers⟩ := h.complete hr
    exact hexhausts.is_of_denotes hv hcovers
  refine ⟨fun hr ↦ ?_, fun v hv ↦ ?_, hmany⟩
  · refine Set.eq_empty_of_forall_notMem fun v hv ↦ ?_
    have hv := hall (by rw [hr]; rintro ⟨⟩) v hv
    rw [hr] at hv
    cases hv
  · refine Set.eq_singleton_iff_unique_mem.2 ⟨hsound v hv, fun w hw ↦ ?_⟩
    exact (hall hv.ne_ambiguous w hw).eq hv

theorem resolveExport_missing {m : ModuleId} {name : String} :
    s.resolveExport m name = .missing ↔ s.denoted m name = ∅ := by
  obtain ⟨hmissing, hbinding, hambiguous⟩ := s.denoted_of_resolveExport m name
  refine ⟨hmissing, fun hempty ↦ ?_⟩
  cases hr : s.resolveExport m name with
  | missing => rfl
  | ambiguous => simpa [hempty] using hambiguous hr
  | binding t n => simpa [hempty] using (hbinding (t, n) hr).symm

theorem resolveExport_binding {m t : ModuleId} {name : String} {n : Option String} :
    s.resolveExport m name = .binding t n ↔ s.denoted m name = {(t, n)} := by
  obtain ⟨hmissing, hbinding, hambiguous⟩ := s.denoted_of_resolveExport m name
  refine ⟨hbinding (t, n), fun hone ↦ ?_⟩
  cases hr : s.resolveExport m name with
  | missing => simpa [hone] using hmissing hr
  | ambiguous => simpa [hone] using hambiguous hr
  | binding t' n' =>
    obtain ⟨rfl, rfl⟩ : t = t' ∧ n = n' := by simpa using hone.symm.trans (hbinding (t', n') hr)
    rfl

theorem resolveExport_ambiguous {m : ModuleId} {name : String} :
    s.resolveExport m name = .ambiguous ↔ (s.denoted m name).Nontrivial := by
  obtain ⟨hmissing, hbinding, hambiguous⟩ := s.denoted_of_resolveExport m name
  refine ⟨hambiguous, fun hmany ↦ ?_⟩
  cases hr : s.resolveExport m name with
  | missing => simp [hmissing hr] at hmany
  | ambiguous => rfl
  | binding t n => simp [hbinding (t, n) hr] at hmany

/-- Names that denote the same resolve to the same. -/
theorem resolveExport_congr {m : ModuleId} {name : String}
    (h : s'.denoted m name = s.denoted m name) :
    s'.resolveExport m name = s.resolveExport m name := by
  cases hr : s.resolveExport m name with
  | missing => exact resolveExport_missing.2 (h.trans (resolveExport_missing.1 hr))
  | ambiguous => exact resolveExport_ambiguous.2 (h ▸ resolveExport_ambiguous.1 hr)
  | binding t n => exact resolveExport_binding.2 (h.trans (resolveExport_binding.1 hr))

/-! ## The order of star exports -/

namespace ReordersStars

theorem symm (h : s.ReordersStars s') : s'.ReordersStars s where
  synthetic m := (h.synthetic m).symm
  source m := by
    have hrel := h.source m
    generalize s.source? m = o, s'.source? m = o' at hrel ⊢
    cases hrel with
    | some h => exact .some ⟨h.1.symm, h.2.1.symm, h.2.2.symm⟩
    | none => exact .none
  imported m request := (h.imported m request).symm

theorem source_of_source (h : s.ReordersStars s') {m : ModuleId} {r : SourceText}
    (hm : s.source? m = some r) : ∃ r', s'.source? m = some r' ∧
      r'.entries.localExports = r.entries.localExports ∧
      r'.entries.indirectExports = r.entries.indirectExports ∧
      r'.entries.starExports.Perm r.entries.starExports := by
  have hrel := h.source m
  rw [hm] at hrel
  generalize s'.source? m = o at hrel
  cases hrel with
  | some h => exact ⟨_, rfl, h⟩

theorem offers (h : s.ReordersStars s') (hv : s.Offers p v) : s'.Offers p v := by
  cases hv with
  | synthetic hm hname => exact .synthetic (by rw [h.synthetic, hm]) hname
  | own hm hown =>
    obtain ⟨r', hm', hlocal, -, -⟩ := h.source_of_source hm
    exact .own hm' (by rwa [hlocal])
  | namespaceOf hm hown hindirect hall ht =>
    obtain ⟨r', hm', hlocal, hsame, -⟩ := h.source_of_source hm
    exact .namespaceOf hm' (by rwa [hlocal]) (by rwa [hsame]) hall (by rwa [h.imported])

theorem follows (h : s.ReordersStars s') (hq : s.Follows p q) : s'.Follows p q := by
  cases hq with
  | renamed hm hown hindirect hname ht =>
    obtain ⟨r', hm', hlocal, hsame, -⟩ := h.source_of_source hm
    exact .renamed hm' (by rwa [hlocal]) (by rwa [hsame]) hname (by rwa [h.imported])
  | star hm hown hindirect hdefault hr ht =>
    obtain ⟨r', hm', hlocal, hsame, hstars⟩ := h.source_of_source hm
    exact .star hm' (by rwa [hlocal]) (by rwa [hsame]) hdefault (hstars.mem_iff.2 hr)
      (by rwa [h.imported])

theorem denotes (h : s.ReordersStars s') (hv : s.Denotes p v) : s'.Denotes p v := by
  induction hv with
  | offer hv => exact .offer (h.offers hv)
  | follow hq _ ih => exact .follow (h.follows hq) ih

theorem denoted_eq (h : s.ReordersStars s') (m : ModuleId) (name : String) :
    s'.denoted m name = s.denoted m name :=
  Set.ext fun _ ↦ ⟨h.symm.denotes, h.denotes⟩

end ReordersStars

/-- The look-up of a name in a module ends. The name is missing if it denotes nothing, stands for the
one thing that it denotes, and is ambiguous if it denotes several things. So the order of the star
exports makes no difference. -/
theorem resolveExport_iff_denoted (s : Store) (m : ModuleId) (name : String) :
    (∃ met, s.Finds (.name (m, name)) [] (s.resolveExport m name) met) ∧
      (s.resolveExport m name = .missing ↔ s.denoted m name = ∅) ∧
      (∀ t n, s.resolveExport m name = .binding t n ↔ s.denoted m name = {(t, n)}) ∧
      (s.resolveExport m name = .ambiguous ↔ (s.denoted m name).Nontrivial) ∧
      ∀ s', s.ReordersStars s' → s'.resolveExport m name = s.resolveExport m name := by
  refine ⟨s.finds_resolveExport m name, resolveExport_missing, fun t n ↦ resolveExport_binding,
    resolveExport_ambiguous, fun s' hs' ↦ ?_⟩
  exact resolveExport_congr (hs'.denoted_eq m name)

end Store

/-- Two star exports lead to the same name, one of them through a module that exports the first one
again. -/
def starGraph (stars : List Request) : Store where
  modules := #[
    { content := .sourceText
        { entries := { requests := [{ specifier := "a" }, { specifier := "b" }], starExports := stars }
          loaded := [⟨{ specifier := "a" }, ⟨1⟩⟩, ⟨{ specifier := "b" }, ⟨2⟩⟩] } },
    { content := .sourceText
        { entries :=
            { requests := [{ specifier := "top" }, { specifier := "b" }]
              starExports := [{ specifier := "top" }, { specifier := "b" }] }
          loaded := [⟨{ specifier := "top" }, ⟨0⟩⟩, ⟨{ specifier := "b" }, ⟨2⟩⟩] } },
    { content := .sourceText { entries := { localExports := [⟨"x", "local"⟩] } } }]

theorem resolveExport_iff_denoted_starGraph :
    (starGraph [{ specifier := "a" }, { specifier := "b" }]).ReordersStars
        (starGraph [{ specifier := "b" }, { specifier := "a" }]) ∧
      (starGraph [{ specifier := "a" }, { specifier := "b" }]).denoted ⟨0⟩ "x" =
        {(⟨2⟩, some "local")} ∧
      (starGraph [{ specifier := "b" }, { specifier := "a" }]).resolveExport ⟨0⟩ "x" =
        .binding ⟨2⟩ (some "local") := by
  have hreorders : (starGraph [{ specifier := "a" }, { specifier := "b" }]).ReordersStars
      (starGraph [{ specifier := "b" }, { specifier := "a" }]) := by
    refine ⟨?_, ?_, ?_⟩
    · rintro ⟨_ | _ | _ | n⟩ <;> rfl
    · rintro ⟨_ | _ | _ | n⟩
      · exact .some ⟨rfl, rfl, .swap _ _ _⟩
      · exact .some ⟨rfl, rfl, .refl _⟩
      · exact .some ⟨rfl, rfl, .refl _⟩
      · exact .none
    · rintro ⟨_ | _ | _ | n⟩ request <;> rfl
  obtain ⟨-, -, hbinding, -, horder⟩ := Store.resolveExport_iff_denoted
    (starGraph [{ specifier := "a" }, { specifier := "b" }]) ⟨0⟩ "x"
  have hresolve : (starGraph [{ specifier := "a" }, { specifier := "b" }]).resolveExport ⟨0⟩ "x" =
      .binding ⟨2⟩ (some "local") := by decide +kernel
  exact ⟨hreorders, (hbinding _ _).1 hresolve, (horder _ hreorders).trans hresolve⟩

end EcmaModules
