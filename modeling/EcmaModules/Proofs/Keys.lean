import EcmaModules.Namespace
import EcmaModules.Proofs.Denotation
import Mathlib

/-!
# The keys of a namespace

A name is a key of a namespace if it is an exported name that stands for something. It is enough to
know that the name stands for something: then it is an exported name as well, so nothing that can be
imported from a module is missing from its namespace.

The two come about differently. The exported names are gathered module by module, each module once,
and `default` is left out behind every star export. The resolution of a name goes from one module with
a name to the next, and may come to a module more than once. What relates them is the first part of
the way that a resolution takes: up to the module that has the name as its own it follows star exports
only, and the name stays the same.

## Order

Keys are in the order of their UTF-16 code units, and are looked for by halving. Two texts with the same
code units are the same, since a unit that is half of a pair is not a character of its own.
-/

namespace EcmaModules

/-! ## Code units -/

namespace Text

/-- The first character can be told from the code units. -/
theorem charUnits_append_inj {c d : Char} {u v : List Nat}
    (h : charUnits c ++ u = charUnits d ++ v) : c = d ∧ u = v := by
  have hvalid : ∀ c : Char, c.toNat < 0xd800 ∨ 0xdfff < c.toNat ∧ c.toNat < 0x110000 :=
    fun c ↦ c.valid
  have hc := hvalid c
  have hd := hvalid d
  have heq : c.toNat = d.toNat → c = d := fun h ↦ Char.toNat_inj.1 h
  simp only [charUnits] at h
  split at h <;> split at h <;>
    simp only [List.cons_append, List.nil_append, List.cons.injEq] at h
  · exact ⟨heq h.1, h.2⟩
  · omega
  · omega
  · exact ⟨heq (by omega), h.2.2⟩

theorem charUnits_ne_nil (c : Char) : charUnits c ≠ [] := by
  simp only [charUnits]
  split <;> exact List.cons_ne_nil _ _

theorem units_injective : Function.Injective units := by
  have hlist : ∀ as bs : List Char, as.flatMap charUnits = bs.flatMap charUnits → as = bs := by
    intro as
    induction as with
    | nil =>
      rintro (_ | ⟨b, bs⟩) h
      · rfl
      · exact absurd (List.append_eq_nil_iff.1 h.symm).1 (charUnits_ne_nil b)
    | cons a as ih =>
      rintro (_ | ⟨b, bs⟩) h
      · exact absurd (List.append_eq_nil_iff.1 h).1 (charUnits_ne_nil a)
      · obtain ⟨rfl, hrest⟩ := charUnits_append_inj h
        rw [ih bs hrest]
  exact fun a b h ↦ String.toList_injective (hlist _ _ h)

instance : Std.TransCmp compare where
  eq_swap := Std.OrientedOrd.eq_swap (α := List ℕ)
  isLE_trans := Std.TransOrd.isLE_trans (α := List ℕ)

instance : Std.LawfulEqCmp compare where
  compare_self := Std.ReflOrd.compare_self (α := List ℕ)
  eq_of_compare h := units_injective (Std.LawfulEqCmp.eq_of_compare h)

theorem compare_self (a : String) : compare a a = .eq := Std.ReflCmp.compare_self

end Text

namespace Store

variable {keys names : List String} {key name : String}

/-! ## Sorting -/

theorem mem_insertKey : key ∈ insertKey name keys ↔ key = name ∨ key ∈ keys := by
  induction keys with
  | nil => simp [insertKey]
  | cons first rest ih =>
    unfold insertKey
    split
    · simp
    · next heq =>
      obtain rfl := Std.LawfulEqCmp.eq_of_compare heq
      simp
    · simp only [List.mem_cons, ih]
      exact or_left_comm

theorem mem_sortKeys : key ∈ sortKeys names ↔ key ∈ names := by
  induction names with
  | nil => rfl
  | cons name names ih => exact mem_insertKey.trans (by rw [List.mem_cons, ← ih]; rfl)

/-- The keys are in the order of their code units, and no two of them are the same. -/
abbrev Increasing (keys : List String) : Prop :=
  keys.Pairwise (Text.compare · · = .lt)

theorem Increasing.insertKey (h : Increasing keys) (name : String) :
    Increasing (insertKey name keys) := by
  induction keys with
  | nil => exact List.pairwise_singleton _ _
  | cons first rest ih =>
    obtain ⟨hfirst, hrest⟩ := List.pairwise_cons.1 h
    unfold Store.insertKey
    split
    · next hlt =>
      refine List.pairwise_cons.2 ⟨List.forall_mem_cons.2 ⟨hlt, fun key hkey ↦ ?_⟩, h⟩
      exact Std.TransCmp.lt_trans hlt (hfirst key hkey)
    · exact h
    · next hgt =>
      refine List.pairwise_cons.2 ⟨fun key hkey ↦ ?_, ih hrest⟩
      rcases mem_insertKey.1 hkey with rfl | hkey
      · exact Std.OrientedCmp.gt_iff_lt.1 hgt
      · exact hfirst key hkey

theorem increasing_sortKeys (names : List String) : Increasing (sortKeys names) := by
  induction names with
  | nil => exact .nil
  | cons name names ih => exact ih.insertKey name

/-! ## Searching -/

/-- A search comes to the name if it is among the keys from the base on, and only then. -/
theorem searchKeys_iff (h : Increasing keys) {depth base size : ℕ} (hdepth : size < depth)
    (hsize : base + size ≤ keys.length) :
    searchKeys keys name depth base size = true ↔
      ∃ i, base ≤ i ∧ i < base + size ∧ keys[i]? = some name := by
  induction depth generalizing base size with
  | zero => omega
  | succ depth ih =>
    rw [searchKeys]
    split
    · next hzero => exact ⟨nofun, fun ⟨i, hbase, hi, _⟩ ↦ by omega⟩
    split
    · next hone =>
      have hsame : ∀ key, (Text.compare key name == .eq) = true ↔ key = name := fun key ↦
        beq_iff_eq.trans Std.LawfulEqCmp.compare_eq_iff_eq
      simp only [Option.any_eq_true, hsame, exists_eq_right]
      refine ⟨fun hkey ↦ ⟨base, le_rfl, by omega, hkey⟩, fun ⟨i, hbase, hi, hkey⟩ ↦ ?_⟩
      obtain rfl : i = base := by omega
      exact hkey
    · next hne hne' =>
      -- The place in the middle is one of the keys, which tells on which side of it the name can be.
      have hmiddle : base + size / 2 < keys.length := by omega
      have hkeys : ∀ {i j : ℕ} {a b : String}, keys[i]? = some a → keys[j]? = some b → i < j →
          Text.compare a b = .lt := fun {i j a b} ha hb hij ↦ by
        obtain ⟨hi, rfl⟩ := List.getElem?_eq_some_iff.1 ha
        obtain ⟨hj, rfl⟩ := List.getElem?_eq_some_iff.1 hb
        exact List.pairwise_iff_getElem.1 h i j hi hj hij
      have hkey := List.getElem?_eq_getElem hmiddle
      simp only [hkey, Option.any_some, beq_iff_eq]
      split
      · next hgt =>
        rw [ih (by omega) (by omega)]
        refine exists_congr fun i ↦ and_congr_right fun hbase ↦
          ⟨fun ⟨hi, hname⟩ ↦ ⟨by omega, hname⟩, fun ⟨hi, hname⟩ ↦ ⟨?_, hname⟩⟩
        by_contra hnot
        have hle : base + size / 2 ≤ i := by omega
        rcases Nat.eq_or_lt_of_le hle with heq | hlt
        · rw [← heq, hkey] at hname
          rw [Option.some.inj hname, Text.compare_self] at hgt
          exact nomatch hgt
        · exact nomatch hgt.symm.trans (hkeys hkey hname hlt)
      · next hngt =>
        rw [ih (by omega) (by omega)]
        refine exists_congr fun i ↦ ⟨fun ⟨hbase, hi, hname⟩ ↦ ⟨by omega, by omega, hname⟩,
          fun ⟨hbase, hi, hname⟩ ↦ ⟨?_, by omega, hname⟩⟩
        by_contra hnot
        have hlt := hkeys hname hkey (by omega)
        exact hngt (Std.OrientedCmp.gt_iff_lt.2 hlt)

/-- A namespace has the names that are among its keys. -/
theorem hasExport_iff {s : Store} {n : NamespaceId} {r : Namespace} (hr : s.namespace? n = some r)
    (h : Increasing r.keys) : s.hasExport n name = true ↔ name ∈ r.keys := by
  rw [hasExport, hr, Option.any_some, searchKeys_iff h (Nat.lt_succ_self _) (Nat.zero_add _).le,
    List.mem_iff_getElem?]
  refine exists_congr fun i ↦ ⟨fun hi ↦ hi.2.2, fun hname ↦ ⟨Nat.zero_le i, ?_, hname⟩⟩
  obtain ⟨hi, -⟩ := List.getElem?_eq_some_iff.1 hname
  omega

/-! ## Names behind star exports -/

/-- The module says itself what the name stands for. -/
inductive Owns (s : Store) (m : ModuleId) (name : String) : Prop
  | synthetic {r : Synthetic} (hm : s.synthetic? m = some r) (h : name ∈ r.exportNames)
  | source {r : SourceText} (hm : s.source? m = some r)
      (h : name ∈ r.entries.localExports.map (·.exported) ++ r.entries.indirectExports.map (·.exported))

/-- The module exports whatever the other one does. -/
def Spreads (s : Store) (m d : ModuleId) : Prop :=
  ∃ r, s.source? m = some r ∧ ∃ q ∈ r.entries.starExports, s.imported? m q = some d

/-- The names of the module's own are among those gathered, or it was met and they are left to where
that was. -/
def Gathered (s : Store) (names : List String) (met : List ModuleId) (d : ModuleId) : Prop :=
  d ∈ met ∨ s.source? d = none ∧ ∀ name, s.Owns d name → name ≠ "default" → name ∈ names

/-- The modules that were met in between have been gone through. -/
def Gathers (s : Store) (names : List String) (met met' : List ModuleId) : Prop :=
  ∀ x ∈ met', x ∉ met → (∀ name, s.Owns x name → name ≠ "default" → name ∈ names) ∧
    ∀ d, s.Spreads x d → s.Gathered names met' d

variable {s : Store} {m d : ModuleId} {names' more : List String} {met met₁ met' : List ModuleId}

theorem owns_iff_of_synthetic {r : Synthetic} (hm : s.synthetic? m = some r) :
    s.Owns m name ↔ name ∈ r.exportNames := by
  refine ⟨fun h ↦ ?_, .synthetic hm⟩
  cases h with
  | synthetic hm' h => exact Option.some.inj (hm.symm.trans hm') ▸ h
  | source hm' => exact nomatch (source?_eq_none_of_synthetic? hm).symm.trans hm'

theorem owns_iff_of_source {r : SourceText} (hm : s.source? m = some r) :
    s.Owns m name ↔
      name ∈ r.entries.localExports.map (·.exported) ++ r.entries.indirectExports.map (·.exported) := by
  refine ⟨fun h ↦ ?_, .source hm⟩
  cases h with
  | synthetic hm' => exact nomatch (source?_eq_none_of_synthetic? hm').symm.trans hm
  | source hm' h => exact Option.some.inj (hm.symm.trans hm') ▸ h

theorem Gathered.mono (h : s.Gathered names met d) (hmet : met ⊆ met')
    (hnames : ∀ name ∈ names, name ≠ "default" → name ∈ names') : s.Gathered names' met' d :=
  h.imp (@hmet d) fun ⟨hd, h⟩ ↦ ⟨hd, fun name hname hne ↦ hnames name (h name hname hne) hne⟩

theorem Gathers.trans (h : s.Gathers names met met₁) (h' : s.Gathers more met₁ met')
    (hmet : met₁ ⊆ met') (hnames : ∀ name ∈ names, name ≠ "default" → name ∈ names')
    (hmore : ∀ name ∈ more, name ≠ "default" → name ∈ names') : s.Gathers names' met met' := by
  intro x hx hnot
  by_cases hx₁ : x ∈ met₁
  · obtain ⟨howns, hspreads⟩ := h x hx₁ hnot
    exact ⟨fun name hname hne ↦ hnames name (howns name hname hne) hne,
      fun d hd ↦ (hspreads d hd).mono hmet hnames⟩
  · obtain ⟨howns, hspreads⟩ := h' x hx hx₁
    exact ⟨fun name hname hne ↦ hmore name (howns name hname hne) hne,
      fun d hd ↦ (hspreads d hd).mono (List.Subset.refl _) hmore⟩

theorem mem_addStarNames :
    name ∈ addStarNames names more ↔ name ∈ names ∨ name ∈ more ∧ name ≠ "default" := by
  unfold addStarNames
  induction more generalizing names with
  | nil => simp
  | cons n more ih =>
    rw [List.foldl_cons, ih]
    split
    · next hskip =>
      simp only [Bool.or_eq_true, decide_eq_true_eq, List.contains_iff_mem] at hskip
      grind
    · next hadd => grind

/-- What is found through a star export is added to what was gathered. `look` gathers the names of a
module, given what was met before. -/
def addStar (look : ModuleId → List ModuleId → List String × List ModuleId)
    (imported : Request → Option ModuleId) (acc : List String × List ModuleId) (q : Request) :
    List String × List ModuleId :=
  match imported q with
  | some t => (addStarNames acc.1 (look t acc.2).1, (look t acc.2).2)
  | none => acc

/-- The star exports of a module are gone through one after the other. -/
theorem gathers_foldl {look : ModuleId → List ModuleId → List String × List ModuleId}
    {imported : Request → Option ModuleId} {qs : List Request}
    (hlook : ∀ t met', met₁ ⊆ met' → met' ⊆ (look t met').2 ∧
      s.Gathers (look t met').1 met' (look t met').2 ∧ s.Gathered (look t met').1 (look t met').2 t)
    (h : s.Gathers names met met₁) {out : List String × List ModuleId}
    (hout : out = qs.foldl (addStar look imported) (names, met₁)) :
    met₁ ⊆ out.2 ∧ names ⊆ out.1 ∧ s.Gathers out.1 met out.2 ∧
      ∀ q ∈ qs, ∀ t, imported q = some t → s.Gathered out.1 out.2 t := by
  induction qs generalizing names met₁ with
  | nil =>
    subst hout
    exact ⟨List.Subset.refl _, List.Subset.refl _, h, List.forall_mem_nil _⟩
  | cons q qs ih =>
    rw [List.foldl_cons] at hout
    cases hq : imported q with
    | none =>
      simp only [addStar, hq] at hout
      obtain ⟨hmet, hnames, hgathers, hrest⟩ := ih hlook h hout
      exact ⟨hmet, hnames, hgathers, List.forall_mem_cons.2 ⟨by simp [hq], hrest⟩⟩
    | some t =>
      simp only [addStar, hq] at hout
      obtain ⟨hsub, hmore, hfound⟩ := hlook t met₁ (List.Subset.refl _)
      have hleft : ∀ name ∈ names, name ∈ addStarNames names (look t met₁).1 := fun name hname ↦
        mem_addStarNames.2 (.inl hname)
      have hright : ∀ name ∈ (look t met₁).1, name ≠ "default" →
          name ∈ addStarNames names (look t met₁).1 := fun name hname hne ↦
        mem_addStarNames.2 (.inr ⟨hname, hne⟩)
      obtain ⟨hmet, hnames, hgathers, hrest⟩ :=
        ih (fun t' met' hmet' ↦ hlook t' met' (List.Subset.trans hsub hmet'))
          (h.trans hmore hsub (fun name hname _ ↦ hleft name hname) hright) hout
      refine ⟨List.Subset.trans hsub hmet, fun name hname ↦ hnames (hleft name hname), hgathers,
        List.forall_mem_cons.2 ⟨fun t' ht' ↦ ?_, hrest⟩⟩
      obtain rfl := Option.some.inj (hq.symm.trans ht')
      exact hfound.mono hmet fun name hname hne ↦ hnames (hright name hname hne)

/-- The names of one module, and of those behind its star exports, are gathered. -/
theorem exportedNamesFrom_gathers {U : Finset ModuleId} (hU : ∀ m, (s.source? m).isSome → m ∈ U)
    {depth : ℕ} (hdepth : unmet U met < depth) :
    met ⊆ (s.exportedNamesFrom depth m met).2 ∧
      s.Gathers (s.exportedNamesFrom depth m met).1 met (s.exportedNamesFrom depth m met).2 ∧
      s.Gathered (s.exportedNamesFrom depth m met).1 (s.exportedNamesFrom depth m met).2 m ∧
      (m ∉ met → ∀ name, s.Owns m name → name ∈ (s.exportedNamesFrom depth m met).1) := by
  induction depth generalizing m met with
  | zero => omega
  | succ depth ih =>
    have hstay : ∀ {names}, s.Gathers names met met := fun x hx hnot ↦ absurd hx hnot
    rcases hmod : s.module? m with _ | ⟨r | r, _, _, _, _, _⟩
    · have hnone : ∀ name, ¬s.Owns m name := by
        rintro name (⟨hm, -⟩ | ⟨hm, -⟩)
        · simp [synthetic?, hmod] at hm
        · simp [source?, hmod] at hm
      have heq : s.exportedNamesFrom (depth + 1) m met = ([], met) := by
        simp only [exportedNamesFrom, hmod]
      rw [heq]
      exact ⟨List.Subset.refl _, hstay,
        .inr ⟨by simp only [source?, hmod], fun name hname ↦ absurd hname (hnone name)⟩,
        fun _ name hname ↦ absurd hname (hnone name)⟩
    · have hm : s.source? m = some r := by simp only [source?, hmod]
      by_cases hmet : m ∈ met
      · have heq : s.exportedNamesFrom (depth + 1) m met = ([], met) := by
          simp only [exportedNamesFrom, hmod, List.contains_iff_mem.2 hmet, if_true]
        rw [heq]
        exact ⟨List.Subset.refl _, hstay, .inl hmet, fun hnot ↦ absurd hmet hnot⟩
      · have hnext : ∀ met', m :: met ⊆ met' → unmet U met' < depth := fun met' hmet' ↦ by
          have hcons := unmet_cons_lt (hU m (by rw [hm]; rfl)) hmet
          have hmono := unmet_mono (U := U) hmet'
          omega
        have hlook : ∀ t met', m :: met ⊆ met' → met' ⊆ (s.exportedNamesFrom depth t met').2 ∧
            s.Gathers (s.exportedNamesFrom depth t met').1 met' (s.exportedNamesFrom depth t met').2 ∧
            s.Gathered (s.exportedNamesFrom depth t met').1 (s.exportedNamesFrom depth t met').2 t :=
          fun t met' hmet' ↦ by
            obtain ⟨hmore, hfound, hends, -⟩ := ih (m := t) (hnext met' hmet')
            exact ⟨hmore, hfound, hends⟩
        have hout : s.exportedNamesFrom (depth + 1) m met = r.entries.starExports.foldl
            (addStar (s.exportedNamesFrom depth) (s.imported? m))
            (r.entries.localExports.map (·.exported) ++ r.entries.indirectExports.map (·.exported),
              m :: met) := by
          rw [exportedNamesFrom, hmod]
          exact if_neg (by simpa using hmet)
        obtain ⟨hsub, hnames, hgathers, hstars⟩ :=
          gathers_foldl hlook (fun x hx hnot ↦ absurd hx hnot) hout
        have howns : ∀ name, s.Owns m name → name ∈ (s.exportedNamesFrom (depth + 1) m met).1 :=
          fun name hname ↦ hnames ((owns_iff_of_source hm).1 hname)
        refine ⟨fun x hx ↦ hsub (List.mem_cons_of_mem _ hx), fun x hx hnot ↦ ?_,
          .inl (hsub List.mem_cons_self), fun _ ↦ howns⟩
        by_cases hxm : x = m
        · subst hxm
          refine ⟨fun name hname _ ↦ howns name hname, fun d hspreads ↦ ?_⟩
          obtain ⟨r', hr', q, hq, hd⟩ := hspreads
          obtain rfl := Option.some.inj (hm.symm.trans hr')
          exact hstars q hq d hd
        · exact hgathers x hx fun hmem ↦ (List.mem_cons.1 hmem).elim hxm hnot
    · have hm : s.synthetic? m = some r := by simp only [synthetic?, hmod]
      have heq : s.exportedNamesFrom (depth + 1) m met = (r.exportNames, met) := by
        simp only [exportedNamesFrom, hmod]
      rw [heq]
      have howns : ∀ name, s.Owns m name → name ∈ r.exportNames := fun name ↦
        (owns_iff_of_synthetic hm).1
      exact ⟨List.Subset.refl _, hstay,
        .inr ⟨source?_eq_none_of_synthetic? hm, fun name hname _ ↦ howns name hname⟩,
        fun _ ↦ howns⟩

/-- What a module exports through star exports is gathered, wherever that is. -/
theorem Gathers.mem (h : s.Gathers names [] met) (hm : s.Gathered names met m)
    (hpath : Relation.ReflTransGen s.Spreads m d) (hname : s.Owns d name) (hne : name ≠ "default") :
    name ∈ names := by
  induction hpath using Relation.ReflTransGen.head_induction_on with
  | refl =>
    rcases hm with hmem | ⟨-, hall⟩
    · exact (h _ hmem List.not_mem_nil).1 name hname hne
    · exact hall name hname hne
  | head hspreads _ ih =>
    rcases hm with hmem | ⟨hnone, -⟩
    · exact ih ((h _ hmem List.not_mem_nil).2 _ hspreads)
    · obtain ⟨r, hr, -⟩ := hspreads
      exact nomatch hnone.symm.trans hr

/-- The names that a module exports: those of its own, and but for `default` those of the modules that
star exports lead to. -/
theorem mem_exportedNames (hpath : Relation.ReflTransGen s.Spreads m d) (hname : s.Owns d name)
    (hne : d = m ∨ name ≠ "default") : name ∈ s.exportedNames m := by
  have hU : ∀ x, (s.source? x).isSome → x ∈ (Finset.range s.modules.size).image ModuleId.mk :=
    fun x hx ↦ by
      obtain ⟨r, hr⟩ := Option.isSome_iff_exists.1 hx
      exact Finset.mem_image.2 ⟨x.index, Finset.mem_range.2 (mem_modules_of_source? hr).1, rfl⟩
  have hcard : unmet ((Finset.range s.modules.size).image ModuleId.mk) [] < s.modules.size + 1 := by
    have hle := Finset.card_filter_le ((Finset.range s.modules.size).image ModuleId.mk) (· ∉ [])
    have himage := Finset.card_image_le (s := Finset.range s.modules.size) (f := ModuleId.mk)
    rw [Finset.card_range] at himage
    exact Nat.lt_succ_of_le (hle.trans himage)
  obtain ⟨-, hgathers, hgathered, howns⟩ := exportedNamesFrom_gathers (m := m) hU hcard
  by_cases hdefault : name = "default"
  · obtain rfl := hne.resolve_right (not_not_intro hdefault)
    exact howns List.not_mem_nil name hname
  · exact hgathers.mem hgathered hpath hname hdefault

/-- Whatever a name denotes, one gets to a module that has the name as its own along star exports. -/
theorem Denotes.owns {p : ModuleId × String} {v : Denotation} (h : s.Denotes p v) :
    ∃ d, Relation.ReflTransGen s.Spreads p.1 d ∧ s.Owns d p.2 ∧ (d = p.1 ∨ p.2 ≠ "default") := by
  have hindirect : ∀ {m r name} {e : IndirectExport}, s.source? m = some r →
      r.entries.indirectExports.find? (·.exported == name) = some e → s.Owns m name :=
    fun {m r name e} hm he ↦ .source hm <| List.mem_append_right _ <| List.mem_map.2
      ⟨e, List.mem_of_find?_eq_some he, by simpa using List.find?_some he⟩
  induction h with
  | offer h =>
    cases h with
    | synthetic hm hname => exact ⟨_, .refl, .synthetic hm hname, .inl rfl⟩
    | own hm hown =>
      refine ⟨_, .refl, .source hm (List.mem_append_left _ (List.mem_map.2 ?_)), .inl rfl⟩
      exact ⟨_, List.mem_of_find?_eq_some hown, by simpa using List.find?_some hown⟩
    | namespaceOf hm _ he => exact ⟨_, .refl, hindirect hm he, .inl rfl⟩
  | follow h _ ih =>
    cases h with
    | renamed hm _ he => exact ⟨_, .refl, hindirect hm he, .inl rfl⟩
    | star hm _ _ hne hr ht =>
      obtain ⟨d, hpath, howns, -⟩ := ih
      exact ⟨d, .head ⟨_, hm, _, hr, ht⟩ hpath, howns, .inr hne⟩

/-- The keys of a namespace are the names that stand for something. -/
theorem mem_namespaceKeys :
    name ∈ s.namespaceKeys m ↔ (s.resolveExport m name).isBinding = true := by
  rw [namespaceKeys, mem_sortKeys, List.mem_filter]
  refine and_iff_right_of_imp fun hbinding ↦ ?_
  obtain ⟨t, n, heq⟩ : ∃ t n, s.resolveExport m name = .binding t n := by
    cases hr : s.resolveExport m name with
    | binding t n => exact ⟨t, n, rfl⟩
    | _ => rw [hr] at hbinding; exact nomatch hbinding
  have hdenotes : s.Denotes (m, name) (t, n) :=
    (Set.eq_singleton_iff_unique_mem.1 (resolveExport_binding.1 heq)).1
  obtain ⟨d, hpath, howns, hne⟩ := hdenotes.owns
  exact mem_exportedNames hpath howns hne

end Store

end EcmaModules
