import EcmaModules.Entries
import Mathlib.Data.List.Nodup
import Mathlib.Data.List.Pairwise
import Mathlib.Data.List.Perm.Subperm

/-!
# Requests that ask for the same module

Two requests ask for the same module if their specifiers agree and their attributes do, in whatever
order. That is how the relation is meant; as it is computed, it is neither symmetric nor transitive,
for an attribute that is repeated on one side is counted but not matched. The keys of the attributes
of one request are different, though, and among such requests the relation is an equivalence.

A module lists each of its requests once. Every import entry, indirect export and star export keeps
the request of its own declaration, which may differ from the listed one in phase only.
-/

namespace EcmaModules

namespace Request

variable {a b c : Request}

/-- No key occurs twice among the attributes. -/
def Distinct (r : Request) : Prop := (r.attributes.map (·.key)).Nodup

/-- The requests ask for the same module, whatever their phases. -/
theorem same_iff (h : a.Distinct) :
    a.same b = true ↔ a.specifier = b.specifier ∧ a.attributes.Perm b.attributes := by
  simp only [same, Bool.and_eq_true, beq_iff_eq, List.all_eq_true, List.contains_iff_mem]
  constructor
  · rintro ⟨⟨hs, hl⟩, hsub⟩
    have hperm := List.subperm_of_subset (List.Nodup.of_map _ h) hsub
    exact ⟨hs, hperm.perm_of_length_le (Nat.le_of_eq hl.symm)⟩
  · rintro ⟨hs, hp⟩
    exact ⟨⟨hs, hp.length_eq⟩, fun x hx ↦ hp.subset hx⟩

theorem Distinct.of_perm (h : a.Distinct) (hp : a.attributes.Perm b.attributes) : b.Distinct :=
  (hp.map _).nodup_iff.1 h

theorem Distinct.of_same (h : a.Distinct) (hs : a.same b = true) : b.Distinct :=
  h.of_perm ((same_iff h).1 hs).2

theorem Distinct.same_self (h : a.Distinct) : a.same a = true := (same_iff h).2 ⟨rfl, .refl _⟩

theorem Distinct.same_symm (h : a.Distinct) (hs : a.same b = true) : b.same a = true :=
  have hab := (same_iff h).1 hs
  (same_iff (h.of_same hs)).2 ⟨hab.1.symm, hab.2.symm⟩

theorem Distinct.same_trans (h : a.Distinct) (hab : a.same b = true) (hbc : b.same c = true) :
    a.same c = true := by
  have hab' := (same_iff h).1 hab
  have hbc' := (same_iff (h.of_same hab)).1 hbc
  exact (same_iff h).2 ⟨hab'.1.trans hbc'.1, hab'.2.trans hbc'.2⟩

end Request

namespace Entries

open Syntax

/-- The requests that the entries keep. -/
def asked (e : Entries) : List Request :=
  e.requests ++ e.imports.map (·.request) ++ e.indirectExports.map (·.request) ++ e.starExports

/-- Every request that the entries keep is listed, and no key occurs twice in it. -/
structure Proper (e : Entries) : Prop where
  distinct : ∀ q ∈ e.asked, q.Distinct
  listed : ∀ q ∈ e.asked, ∃ r ∈ e.requests, r.same q = true

theorem requests_subset_asked (e : Entries) : e.requests ⊆ e.asked := fun q hq ↦ by
  simp [asked, hq]

/-! ## Normalized requests -/

theorem insertAttribute_perm (a : Attribute) (as : List Attribute) :
    (insertAttribute a as).Perm (a :: as) := by
  induction as with
  | nil => exact .refl _
  | cons b as ih =>
    rw [insertAttribute]
    split
    · exact (ih.cons b).trans (.swap a b as)
    · exact .refl _

theorem sortAttributes_perm (as : List Attribute) : (sortAttributes as).Perm as := by
  induction as with
  | nil => exact .refl _
  | cons a as ih => exact (insertAttribute_perm a _).trans (ih.cons a)

theorem distinct_normalize {r : Request} (deferring : Bool) (h : r.Distinct) :
    (normalize deferring r).Distinct :=
  h.of_perm (sortAttributes_perm r.attributes).symm

/-! ## The list of requests -/

/-- Whatever was listed is listed still, up to its phase. -/
theorem exists_mem_addRequest {l : List Request} {x : Request} (r : Request) (hx : x ∈ l) :
    ∃ y ∈ addRequest l r, y.specifier = x.specifier ∧ y.attributes = x.attributes := by
  induction l with
  | nil => exact absurd hx List.not_mem_nil
  | cons s l ih =>
    rw [addRequest]
    rcases List.mem_cons.1 hx with rfl | hx
    · split
      · exact ⟨_, List.mem_cons_self, by split <;> exact ⟨rfl, rfl⟩⟩
      · exact ⟨x, List.mem_cons_self, rfl, rfl⟩
    · split
      · exact ⟨x, List.mem_cons_of_mem _ hx, rfl, rfl⟩
      · obtain ⟨y, hy, heq⟩ := ih hx
        exact ⟨y, List.mem_cons_of_mem _ hy, heq⟩

/-- The request that is added is listed. -/
theorem exists_same_addRequest {r : Request} (hr : r.Distinct) (l : List Request) :
    ∃ y ∈ addRequest l r, y.same r = true := by
  induction l with
  | nil => exact ⟨r, List.mem_singleton.2 rfl, hr.same_self⟩
  | cons s l ih =>
    rw [addRequest]
    split
    · next hs =>
      refine ⟨_, List.mem_cons_self, ?_⟩
      split <;> exact hs
    · obtain ⟨y, hy, hs⟩ := ih
      exact ⟨y, List.mem_cons_of_mem _ hy, hs⟩

theorem distinct_of_mem_addRequest {l : List Request} {r : Request} (hl : ∀ x ∈ l, x.Distinct)
    (hr : r.Distinct) : ∀ x ∈ addRequest l r, x.Distinct := by
  induction l with
  | nil => exact fun x hx ↦ List.mem_singleton.1 hx ▸ hr
  | cons s l ih =>
    rw [List.forall_mem_cons] at hl
    rw [addRequest]
    split
    · refine List.forall_mem_cons.2 ⟨?_, hl.2⟩
      split <;> exact hl.1
    · exact List.forall_mem_cons.2 ⟨hl.1, ih hl.2⟩

theorem distinct_of_mem_foldl {l : List Request} (hl : ∀ x ∈ l, x.Distinct) {acc : List Request}
    (hacc : ∀ x ∈ acc, x.Distinct) : ∀ x ∈ l.foldl addRequest acc, x.Distinct := by
  induction l generalizing acc with
  | nil => exact hacc
  | cons r l ih =>
    rw [List.forall_mem_cons] at hl
    exact ih hl.2 (distinct_of_mem_addRequest hacc hl.1)

theorem same_of_eq {x y q : Request} (h : y.specifier = x.specifier ∧ y.attributes = x.attributes)
    (hs : x.same q = true) : y.same q = true := by
  unfold Request.same at hs ⊢
  rwa [h.1, h.2]

theorem exists_same_foldl {l acc : List Request} (hl : ∀ x ∈ l, x.Distinct) {q : Request}
    (hq : q ∈ l ∨ ∃ x ∈ acc, x.same q = true) : ∃ x ∈ l.foldl addRequest acc, x.same q = true := by
  induction l generalizing acc with
  | nil => exact hq.resolve_left List.not_mem_nil
  | cons r l ih =>
    rw [List.forall_mem_cons] at hl
    refine ih hl.2 ?_
    rcases hq with hq | ⟨x, hx, hs⟩
    · rcases List.mem_cons.1 hq with rfl | hq
      · exact .inr (exists_same_addRequest hl.1 acc)
      · exact .inl hq
    · obtain ⟨y, hy, heq⟩ := exists_mem_addRequest r hx
      exact .inr ⟨y, hy, same_of_eq heq hs⟩

/-- What is listed afterwards was listed before, up to its phase, or is the added request. -/
theorem mem_addRequest {l : List Request} {r y : Request} (hy : y ∈ addRequest l r) :
    y = r ∨ ∃ x ∈ l, y.specifier = x.specifier ∧ y.attributes = x.attributes := by
  induction l with
  | nil => exact .inl (List.mem_singleton.1 hy)
  | cons s l ih =>
    rw [addRequest] at hy
    split at hy
    · rcases List.mem_cons.1 hy with rfl | hy
      · refine .inr ⟨s, List.mem_cons_self, ?_⟩
        split <;> exact ⟨rfl, rfl⟩
      · exact .inr ⟨y, List.mem_cons_of_mem _ hy, rfl, rfl⟩
    · rcases List.mem_cons.1 hy with rfl | hy
      · exact .inr ⟨y, List.mem_cons_self, rfl, rfl⟩
      · refine (ih hy).imp_right fun hx ↦ ?_
        obtain ⟨x, hx, heq⟩ := hx
        exact ⟨x, List.mem_cons_of_mem _ hx, heq⟩

/-- No two of the requests that are listed ask for the same module. -/
theorem pairwise_addRequest {l : List Request} (r : Request)
    (hl : l.Pairwise fun a b ↦ a.same b = false) :
    (addRequest l r).Pairwise fun a b ↦ a.same b = false := by
  induction l with
  | nil => exact List.pairwise_singleton _ _
  | cons s l ih =>
    obtain ⟨hs, hl⟩ := List.pairwise_cons.1 hl
    rw [addRequest]
    split
    · refine List.pairwise_cons.2 ⟨fun y hy ↦ ?_, hl⟩
      split <;> exact hs y hy
    · next hr =>
      refine List.pairwise_cons.2 ⟨fun y hy ↦ ?_, ih hl⟩
      rcases mem_addRequest hy with rfl | ⟨x, hx, hspecifier, hattributes⟩
      · simpa using hr
      · have hsx := hs x hx
        unfold Request.same at hsx ⊢
        rwa [hspecifier, hattributes]

theorem pairwise_foldl_addRequest (l : List Request) {acc : List Request}
    (hacc : acc.Pairwise fun a b ↦ a.same b = false) :
    (l.foldl addRequest acc).Pairwise fun a b ↦ a.same b = false := by
  induction l generalizing acc with
  | nil => exact hacc
  | cons r l ih => exact ih (pairwise_addRequest r hacc)

/-! ## Entries of a text -/

/-- The entries of a text keep the requests of its declarations only. -/
theorem exists_requestOf {deferring : Bool} {body : List Statement} {q : Request}
    (hq : q ∈ (ofBody deferring body).asked) (hnot : q ∉ (ofBody deferring body).requests) :
    ∃ d ∈ declarations body, ∃ r, requestOf? d = some r ∧ q = normalize deferring r := by
  have himport : ∀ i ∈ (ofBody deferring body).imports,
      ∃ d ∈ declarations body, ∃ r, requestOf? d = some r ∧ i.request = normalize deferring r := by
    intro i hi
    obtain ⟨d, hd, hi⟩ := List.mem_flatMap.1 hi
    cases d with
    | imports specifiers r =>
      obtain ⟨_, -, rfl⟩ := List.mem_map.1 hi
      exact ⟨_, hd, r, rfl, rfl⟩
    | _ => exact absurd hi List.not_mem_nil
  have hindirect : ∀ e ∈ (ofBody deferring body).indirectExports,
      ∃ d ∈ declarations body, ∃ r, requestOf? d = some r ∧ e.request = normalize deferring r := by
    intro e he
    rcases List.mem_append.1 he with he | he
    · obtain ⟨d, hd, he⟩ := List.mem_flatMap.1 he
      cases d with
      | exportAll exported r =>
        rcases exported with _ | exported
        · exact absurd he List.not_mem_nil
        · obtain rfl := List.mem_singleton.1 he
          exact ⟨_, hd, r, rfl, rfl⟩
      | exportFrom specifiers r =>
        obtain ⟨_, -, rfl⟩ := List.mem_map.1 he
        exact ⟨_, hd, r, rfl, rfl⟩
      | _ => exact absurd he List.not_mem_nil
    · obtain ⟨x, -, he⟩ := List.mem_filterMap.1 he
      unfold reexport? at he
      split at he
      · next i hi =>
        obtain ⟨_, -, rfl⟩ := Option.map_eq_some_iff.1 he
        exact himport i (List.mem_of_find?_eq_some hi)
      · exact nomatch he
  simp only [asked, List.mem_append, List.mem_map] at hq
  rcases hq with ((hq | ⟨i, hi, rfl⟩) | ⟨e, he, rfl⟩) | hq
  · exact absurd hq hnot
  · exact himport i hi
  · exact hindirect e he
  · obtain ⟨d, hd, hq⟩ := List.mem_flatMap.1 hq
    cases d with
    | exportAll exported r =>
      rcases exported with _ | exported
      · exact ⟨_, hd, r, rfl, List.mem_singleton.1 hq⟩
      · exact absurd hq List.not_mem_nil
    | _ => exact absurd hq List.not_mem_nil

/-- In the entries of a text every request is listed, if no declaration repeats a key. -/
theorem ofBody_proper (deferring : Bool) {body : List Statement}
    (h : ∀ d ∈ declarations body, ∀ r, requestOf? d = some r → r.Distinct) :
    (ofBody deferring body).Proper := by
  have hmade : ∀ q ∈ ((declarations body).filterMap requestOf?).map (normalize deferring),
      q.Distinct := by
    intro q hq
    obtain ⟨r, hr, rfl⟩ := List.mem_map.1 hq
    obtain ⟨d, hd, hr⟩ := List.mem_filterMap.1 hr
    exact distinct_normalize deferring (h d hd r hr)
  have hlisted : ∀ q ∈ (ofBody deferring body).requests, q.Distinct :=
    distinct_of_mem_foldl hmade nofun
  refine ⟨fun q hq ↦ ?_, fun q hq ↦ ?_⟩
  · by_cases hmem : q ∈ (ofBody deferring body).requests
    · exact hlisted q hmem
    · obtain ⟨d, hd, r, hr, rfl⟩ := exists_requestOf hq hmem
      exact distinct_normalize deferring (h d hd r hr)
  · by_cases hmem : q ∈ (ofBody deferring body).requests
    · exact ⟨q, hmem, (hlisted q hmem).same_self⟩
    · obtain ⟨d, hd, r, hr, rfl⟩ := exists_requestOf hq hmem
      refine exists_same_foldl hmade (.inl ?_)
      exact List.mem_map.2 ⟨r, List.mem_filterMap.2 ⟨d, hd, hr⟩, rfl⟩

/-- The requests of a text are different, and so are the modules that they ask for. -/
theorem requests_ofBody (deferring : Bool) {body : List Statement}
    (h : ∀ d ∈ declarations body, ∀ r, requestOf? d = some r → r.Distinct) :
    (ofBody deferring body).requests.Nodup ∧ ∀ a ∈ (ofBody deferring body).requests,
      ∀ b ∈ (ofBody deferring body).requests, a.same b = true → a = b := by
  have hproper := ofBody_proper deferring h
  have hdistinct : ∀ q ∈ (ofBody deferring body).requests, q.Distinct := fun q hq ↦
    hproper.distinct q (requests_subset_asked _ hq)
  have hpairwise : (ofBody deferring body).requests.Pairwise fun a b ↦ a.same b = false :=
    pairwise_foldl_addRequest _ .nil
  refine ⟨hpairwise.imp_of_mem fun {a b} ha _ hab ↦ ?_, fun a ha b hb hab ↦ ?_⟩
  · rintro rfl
    exact absurd (hab.symm.trans (hdistinct a ha).same_self) Bool.false_ne_true
  · by_contra hne
    have hsymm : Std.Symm fun a b : Request ↦ a.same b = false ∨ b.same a = false :=
      ⟨fun _ _ ↦ Or.symm⟩
    have hneither : a.same b = false ∨ b.same a = false :=
      (hpairwise.imp (S := fun a b ↦ a.same b = false ∨ b.same a = false) .inl).forall ha hb hne
    rcases hneither with hnot | hnot
    · exact absurd (hnot.symm.trans hab) Bool.false_ne_true
    · exact absurd (hnot.symm.trans ((hdistinct a ha).same_symm hab)) Bool.false_ne_true

end Entries

end EcmaModules
