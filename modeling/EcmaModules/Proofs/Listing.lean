import EcmaModules.Proofs.Accepted

/-!
# The list of requests

A module requests each module once, though its text may name it often. The list has one request for
all declarations that ask for the same module, where the first of them stands, and that is deferred
only if all of them are.

What is kept, while one declaration after the other is added, is what the list is of the declarations
so far (`Lists`). Adding one is more than it looks: the list is gone through only up to the first
request that asks for the same module. That this is the only one follows from the keys of attributes
being different (`addRequest_eq`); with keys repeated, asking for the same module is not even symmetric.

## Equality up to order

Two requests ask for the same module if they agree but for their phases and the order of attributes.
Requests of texts have their attributes sorted, so for them the order does not matter either.
-/

namespace EcmaModules

/-! ## Requests up to their phases -/

/-- The request, made for evaluation. -/
def Request.undeferred (r : Request) : Request := { r with phase := .evaluation }

/-- The entries of a module, where all that is requested is requested for evaluation. -/
def Entries.undeferred (e : Entries) : Entries :=
  { e with
    requests := e.requests.map (·.undeferred)
    imports := e.imports.map fun i ↦ { i with request := i.request.undeferred }
    indirectExports := e.indirectExports.map fun x ↦ { x with request := x.request.undeferred }
    starExports := e.starExports.map (·.undeferred) }

/-- The declaration is an `import defer`. -/
def Syntax.Declaration.isDeferred : Syntax.Declaration → Bool
  | .imports _ r => r.phase = .defer
  | _ => false

namespace Request

variable {a b c r s : Request}

/-- The request after another one for the same module has been made. -/
def upgraded (s r : Request) : Request :=
  if s.same r ∧ r.phase = .evaluation then s.undeferred else s

theorem upgraded_of_not_same (h : s.same r = false) : s.upgraded r = s := by
  simp [upgraded, h]

@[simp] theorem undeferred_same (s r : Request) : s.undeferred.same r = s.same r := rfl

@[simp] theorem same_undeferred (s r : Request) : s.same r.undeferred = s.same r := rfl

@[simp] theorem upgraded_same (s r q : Request) : (s.upgraded r).same q = s.same q := by
  unfold upgraded
  split <;> rfl

@[simp] theorem same_upgraded (s r q : Request) : q.same (s.upgraded r) = q.same s := by
  unfold upgraded
  split <;> rfl

@[simp] theorem specifier_upgraded (s r : Request) : (s.upgraded r).specifier = s.specifier := by
  unfold upgraded
  split <;> rfl

@[simp] theorem attributes_upgraded (s r : Request) : (s.upgraded r).attributes = s.attributes := by
  unfold upgraded
  split <;> rfl

theorem distinct_upgraded (h : s.Distinct) : (s.upgraded r).Distinct := by
  unfold Distinct
  rw [attributes_upgraded]
  exact h

theorem phase_upgraded :
    (s.upgraded r).phase = .defer ↔ s.phase = .defer ∧ (s.same r = true → r.phase = .defer) := by
  unfold upgraded undeferred
  cases hr : r.phase <;> cases hs : s.same r <;> simp

/-- The request is made by a declaration, as far as it goes without the phase. -/
def Copies (q r : Request) : Prop := q.specifier = r.specifier ∧ q.attributes = r.attributes

theorem Copies.same (h : a.Copies b) (hb : b.Distinct) : a.same b = true := by
  have hself := hb.same_self
  unfold Request.same at hself ⊢
  rwa [h.1, h.2]

end Request

namespace Entries

open Syntax

variable {acc made : List Request} {q r : Request}

/-! ## Adding a request -/

/-- Adding a request to a list in which no two ask for the same module. -/
theorem addRequest_eq (hd : ∀ q ∈ acc, q.Distinct)
    (hp : acc.Pairwise fun a b ↦ a.same b = false) :
    addRequest acc r = acc.map (·.upgraded r) ++ if acc.any (·.same r) then [] else [r] := by
  induction acc with
  | nil => rfl
  | cons s acc ih =>
    obtain ⟨hs, hp⟩ := List.pairwise_cons.1 hp
    obtain ⟨hsd, hd⟩ := List.forall_mem_cons.1 hd
    rw [addRequest]
    split
    · next hsame =>
      -- what comes later asks for other modules, or it would ask for the one of `s`
      have hlater : ∀ t ∈ acc, t.upgraded r = t := by
        intro t ht
        refine Request.upgraded_of_not_same (Bool.eq_false_iff.2 fun htr ↦ ?_)
        have hst := hsd.same_trans hsame ((hd t ht).same_symm htr)
        exact absurd ((hs t ht).symm.trans hst) Bool.false_ne_true
      have hmap : acc.map (·.upgraded r) = acc :=
        (List.map_congr_left hlater).trans (List.map_id acc)
      rw [List.map_cons, hmap]
      simp [Request.upgraded, Request.undeferred, hsame]
    · next hsame =>
      rw [ih hd hp, List.map_cons, Request.upgraded_of_not_same (Bool.eq_false_iff.2 hsame)]
      simp [hsame]

/-- What the list of requests is of the requests that declarations have made so far. -/
structure Lists (made acc : List Request) : Prop where
  copies : ∀ q ∈ acc, ∃ r ∈ made, q.Copies r
  listed : ∀ r ∈ made, ∃ q ∈ acc, q.same r = true
  different : acc.Pairwise fun a b ↦ a.same b = false
  /-- They are in the order in which they were first made. -/
  ordered : (acc.map fun q ↦ made.findIdx q.same).Pairwise (· < ·)
  phases : ∀ q ∈ acc, q.phase = .defer ↔ ∀ r ∈ made, q.same r = true → r.phase = .defer

namespace Lists

theorem nil : Lists [] [] :=
  ⟨nofun, nofun, .nil, .nil, nofun⟩

theorem distinct (h : Lists made acc) (hmade : ∀ r ∈ made, r.Distinct) : ∀ q ∈ acc, q.Distinct := by
  intro q hq
  obtain ⟨r, hr, -, hattributes⟩ := h.copies q hq
  have hdistinct := hmade r hr
  unfold Request.Distinct at hdistinct ⊢
  rwa [hattributes]

/-- What is listed was made. -/
theorem exists_same (h : Lists made acc) (hmade : ∀ r ∈ made, r.Distinct) (hq : q ∈ acc) :
    ∃ r ∈ made, q.same r = true := by
  obtain ⟨r, hr, hcopies⟩ := h.copies q hq
  exact ⟨r, hr, hcopies.same (hmade r hr)⟩

/-- A request for a module that was not requested before comes last. -/
theorem push (h : Lists made acc) (hmade : ∀ r ∈ made, r.Distinct) (hr : r.Distinct)
    (hnew : ∀ q ∈ acc, q.same r = false) : Lists (made ++ [r]) (acc ++ [r]) := by
  have hother : ∀ x ∈ made, r.same x = false := by
    intro x hx
    refine Bool.eq_false_iff.2 fun hrx ↦ ?_
    obtain ⟨q, hq, hqx⟩ := h.listed x hx
    have hqr := (h.distinct hmade q hq).same_trans hqx (hr.same_symm hrx)
    exact absurd ((hnew q hq).symm.trans hqr) Bool.false_ne_true
  have hfirst : ∀ q ∈ acc, (made ++ [r]).findIdx q.same = made.findIdx q.same ∧
      made.findIdx q.same < made.length := by
    intro q hq
    have hlt := List.findIdx_lt_length_of_exists (h.exists_same hmade hq)
    exact ⟨by rw [List.findIdx_append, if_pos hlt], hlt⟩
  have hlast : (made ++ [r]).findIdx r.same = made.length := by
    have hmiss : made.findIdx r.same = made.length := List.findIdx_eq_length.2 hother
    rw [List.findIdx_append, hmiss, if_neg (Nat.lt_irrefl _)]
    simp [hr.same_self]
  refine ⟨fun q hq ↦ ?_, fun x hx ↦ ?_, ?_, ?_, fun q hq ↦ ?_⟩
  · rcases List.mem_append.1 hq with hq | hq
    · obtain ⟨x, hx, hcopies⟩ := h.copies q hq
      exact ⟨x, List.mem_append_left _ hx, hcopies⟩
    · obtain rfl := List.mem_singleton.1 hq
      exact ⟨q, by simp, rfl, rfl⟩
  · rcases List.mem_append.1 hx with hx | hx
    · obtain ⟨q, hq, hqx⟩ := h.listed x hx
      exact ⟨q, List.mem_append_left _ hq, hqx⟩
    · obtain rfl := List.mem_singleton.1 hx
      exact ⟨x, by simp, hr.same_self⟩
  · exact List.pairwise_append.2 ⟨h.different, List.pairwise_singleton _ _, by simpa using hnew⟩
  · have hold : acc.map (fun q ↦ (made ++ [r]).findIdx q.same) = acc.map fun q ↦ made.findIdx q.same :=
      List.map_congr_left fun q hq ↦ (hfirst q hq).1
    rw [List.map_append, hold]
    refine List.pairwise_append.2 ⟨h.ordered, List.pairwise_singleton _ _, fun i hi j hj ↦ ?_⟩
    obtain ⟨q, hq, rfl⟩ := List.mem_map.1 hi
    obtain rfl : j = made.length := by simpa [hlast] using hj
    exact (hfirst q hq).2
  · rcases List.mem_append.1 hq with hq | hq
    · have hnot : ¬q.same r = true := Bool.eq_false_iff.1 (hnew q hq)
      simp [h.phases q hq, hnot, or_imp, forall_and]
    · obtain rfl := List.mem_singleton.1 hq
      constructor
      · intro hphase x hx hqx
        rcases List.mem_append.1 hx with hx | hx
        · exact absurd ((hother x hx).symm.trans hqx) Bool.false_ne_true
        · rwa [List.mem_singleton.1 hx]
      · exact fun hall ↦ hall q (by simp) hr.same_self

/-- A request for a module that was requested before. -/
theorem upgrade (h : Lists made acc) (hmade : ∀ r ∈ made, r.Distinct)
    (hsame : ∃ q ∈ acc, q.same r = true) : Lists (made ++ [r]) (acc.map (·.upgraded r)) := by
  have hfirst : ∀ q ∈ acc, (made ++ [r]).findIdx q.same = made.findIdx q.same := by
    intro q hq
    rw [List.findIdx_append, if_pos (List.findIdx_lt_length_of_exists (h.exists_same hmade hq))]
  refine ⟨List.forall_mem_map.2 fun q hq ↦ ?_, fun x hx ↦ ?_, ?_, ?_,
    List.forall_mem_map.2 fun q hq ↦ ?_⟩
  · obtain ⟨x, hx, hspecifier, hattributes⟩ := h.copies q hq
    exact ⟨x, List.mem_append_left _ hx, by simp [hspecifier], by simp [hattributes]⟩
  · have hlisted : ∃ q ∈ acc, q.same x = true := by
      rcases List.mem_append.1 hx with hx | hx
      · exact h.listed x hx
      · exact List.mem_singleton.1 hx ▸ hsame
    obtain ⟨q, hq, hqx⟩ := hlisted
    exact ⟨_, List.mem_map_of_mem hq, by simpa using hqx⟩
  · exact List.pairwise_map.2 (h.different.imp fun hab ↦ by simpa using hab)
  · have hsames : ∀ q : Request, (q.upgraded r).same = q.same := fun q ↦
      funext fun x ↦ Request.upgraded_same q r x
    have hold : (acc.map (·.upgraded r)).map (fun q ↦ (made ++ [r]).findIdx q.same) =
        acc.map fun q ↦ made.findIdx q.same := by
      rw [List.map_map]
      exact List.map_congr_left fun q hq ↦ by simp [hsames, hfirst q hq]
    rw [hold]
    exact h.ordered
  · simp [Request.phase_upgraded, h.phases q hq, or_imp, forall_and]

theorem add (h : Lists made acc) (hmade : ∀ r ∈ made, r.Distinct) (hr : r.Distinct) :
    Lists (made ++ [r]) (addRequest acc r) := by
  rw [addRequest_eq (h.distinct hmade) h.different]
  by_cases hsame : ∃ q ∈ acc, q.same r = true
  · rw [if_pos (List.any_eq_true.2 hsame), List.append_nil]
    exact h.upgrade hmade hsame
  · have hnew : ∀ q ∈ acc, q.same r = false := fun q hq ↦
      Bool.eq_false_iff.2 fun hqr ↦ hsame ⟨q, hq, hqr⟩
    have hmap : acc.map (·.upgraded r) = acc :=
      (List.map_congr_left fun q hq ↦ Request.upgraded_of_not_same (hnew q hq)).trans
        (List.map_id acc)
    rw [if_neg (fun hany ↦ hsame (List.any_eq_true.1 hany)), hmap]
    exact h.push hmade hr hnew

theorem foldl (h : Lists made acc) {l : List Request} (hmade : ∀ r ∈ made ++ l, r.Distinct) :
    Lists (made ++ l) (l.foldl addRequest acc) := by
  induction l generalizing made acc with
  | nil => simpa using h
  | cons r l ih =>
    have hr : r.Distinct := hmade r (by simp)
    have hbefore : ∀ x ∈ made, x.Distinct := fun x hx ↦ hmade x (List.mem_append_left _ hx)
    have hassoc : made ++ r :: l = made ++ [r] ++ l := by simp
    rw [hassoc] at hmade ⊢
    exact ih (h.add hbefore hr) hmade

/-- One request is listed for each that was made. -/
theorem existsUnique (h : Lists made acc) (hmade : ∀ r ∈ made, r.Distinct) (hr : r ∈ made) :
    ∃! q, q ∈ acc ∧ q.same r = true := by
  have hdistinct := h.distinct hmade
  obtain ⟨q, hq, hqr⟩ := h.listed r hr
  refine ⟨q, ⟨hq, hqr⟩, fun x ⟨hx, hxr⟩ ↦ ?_⟩
  have hsame : ∀ {a b : Request}, a ∈ acc → b ∈ acc → a.same r = true → b.same r = true →
      a.same b = true := fun ha hb har hbr ↦
    (hdistinct _ ha).same_trans har ((hdistinct _ hb).same_symm hbr)
  by_contra hne
  have hsymm : Std.Symm fun a b : Request ↦ a.same b = false ∨ b.same a = false :=
    ⟨fun _ _ ↦ Or.symm⟩
  have hneither : x.same q = false ∨ q.same x = false :=
    (h.different.imp (S := fun a b ↦ a.same b = false ∨ b.same a = false) .inl).forall hx hq hne
  rcases hneither with hnot | hnot
  · exact absurd (hnot.symm.trans (hsame hx hq hxr hqr)) Bool.false_ne_true
  · exact absurd (hnot.symm.trans (hsame hq hx hqr hxr)) Bool.false_ne_true

end Lists

/-! ## Entries of a text -/

/-- The requests that the declarations of a text make, in the order of the text. -/
def requested (deferring : Bool) (body : List Statement) : List Request :=
  ((declarations body).filterMap requestOf?).map (normalize deferring)

theorem mem_requested {deferring : Bool} {body : List Statement} {q : Request} :
    q ∈ requested deferring body ↔
      ∃ d ∈ declarations body, ∃ r, requestOf? d = some r ∧ normalize deferring r = q := by
  simp only [requested, List.mem_map, List.mem_filterMap]
  constructor
  · rintro ⟨r, ⟨d, hd, hr⟩, rfl⟩
    exact ⟨d, hd, r, hr, rfl⟩
  · rintro ⟨d, hd, r, hr, rfl⟩
    exact ⟨r, ⟨d, hd, hr⟩, rfl⟩

section

variable {deferring : Bool} {body : List Statement} (hbody : ∀ d ∈ declarations body, d.Proper)
include hbody

theorem distinct_of_mem_requested : ∀ q ∈ requested deferring body, q.Distinct := by
  intro q hq
  obtain ⟨d, hd, r, hr, rfl⟩ := mem_requested.1 hq
  exact distinct_normalize deferring ((hbody d hd).distinct r hr)

theorem lists_ofBody : Lists (requested deferring body) (ofBody deferring body).requests :=
  Lists.nil.foldl (l := requested deferring body) (distinct_of_mem_requested hbody)

/-- Whatever the entries keep was requested, up to the phase. -/
theorem exists_requested {q : Request} (hq : q ∈ (ofBody deferring body).asked) :
    ∃ r ∈ requested deferring body, q.Copies r := by
  by_cases hmem : q ∈ (ofBody deferring body).requests
  · exact (lists_ofBody hbody).copies q hmem
  · obtain ⟨d, hd, r, hr, rfl⟩ := exists_requestOf hq hmem
    exact ⟨_, mem_requested.2 ⟨d, hd, r, hr, rfl⟩, rfl, rfl⟩

/-- A request that is listed is deferred if all declarations for its module are deferred imports. -/
theorem phase_eq_defer_iff {q : Request} (hq : q ∈ (ofBody deferring body).requests) :
    q.phase = .defer ↔ deferring = true ∧ ∀ d ∈ declarations body, ∀ r, requestOf? d = some r →
      q.same r = true → d.isDeferred = true := by
  have hlists : Lists (requested deferring body) _ := lists_ofBody hbody
  have hmade : ∀ q ∈ requested deferring body, q.Distinct := distinct_of_mem_requested hbody
  have hsame : ∀ r, q.same (normalize deferring r) = true ↔ q.same r = true := fun r ↦ by
    have hperm := sortAttributes_perm r.attributes
    rw [Request.same_iff (hlists.distinct hmade q hq), Request.same_iff (hlists.distinct hmade q hq)]
    exact and_congr_right fun _ ↦ ⟨fun h ↦ h.trans hperm, fun h ↦ h.trans hperm.symm⟩
  have hdeferred : ∀ d ∈ declarations body, ∀ r, requestOf? d = some r →
      (r.phase = .defer ↔ d.isDeferred = true) := by
    intro d hd r hr
    constructor
    · intro hphase
      obtain ⟨specifiers, rfl⟩ := (hbody d hd).deferred r hr hphase
      exact decide_eq_true hphase
    · cases d with
      | imports specifiers r' =>
        obtain rfl : r' = r := Option.some.inj hr
        exact of_decide_eq_true
      | _ => exact nofun
  rw [hlists.phases q hq]
  cases deferring with
  | false =>
    -- nothing is deferred then, and there is a declaration for the request
    obtain ⟨r, hr, hqr⟩ := hlists.exists_same hmade hq
    have hphase : r.phase = .evaluation := by
      obtain ⟨d, hd, r', hr', rfl⟩ := mem_requested.1 hr
      rfl
    simp only [Bool.false_eq_true, false_and, iff_false]
    exact fun hall ↦ nomatch hphase.symm.trans (hall r hr hqr)
  | true =>
    simp only [true_and]
    constructor
    · intro hall d hd r hr hqr
      refine (hdeferred d hd r hr).1 (hall (normalize true r) ?_ ((hsame r).2 hqr))
      exact mem_requested.2 ⟨d, hd, r, hr, rfl⟩
    · intro hall x hx hqx
      obtain ⟨d, hd, r, hr, rfl⟩ := mem_requested.1 hx
      exact (hdeferred d hd r hr).2 (hall d hd r hr ((hsame r).1 hqx))

end

/-! ### Without deferred imports -/

theorem undeferred_addRequest (acc : List Request) (r : Request) :
    (addRequest acc r).map (·.undeferred) = addRequest (acc.map (·.undeferred)) r.undeferred := by
  induction acc with
  | nil => rfl
  | cons s acc ih =>
    rw [List.map_cons, addRequest, addRequest, Request.undeferred_same, Request.same_undeferred]
    split
    · rw [List.map_cons]
      split <;> simp [Request.undeferred]
    · rw [List.map_cons, ih]

theorem undeferred_foldl (l acc : List Request) :
    (l.foldl addRequest acc).map (·.undeferred) =
      (l.map (·.undeferred)).foldl addRequest (acc.map (·.undeferred)) := by
  induction l generalizing acc with
  | nil => rfl
  | cons r l ih => rw [List.foldl_cons, ih, undeferred_addRequest, List.map_cons, List.foldl_cons]

theorem undeferred_reexport? (imports : List ImportEntry) (x : LocalExport) :
    reexport? (imports.map fun i ↦ { i with request := i.request.undeferred }) x =
      (reexport? imports x).map fun y ↦ { y with request := y.request.undeferred } := by
  simp only [reexport?, List.find?_map, Function.comp_def]
  cases imports.find? (·.localName == x.localName) with
  | none => rfl
  | some i => cases hi : i.imported <;> simp [hi]

/-- Switching off deferred imports changes the phases of requests, and nothing else. -/
theorem ofBody_false (body : List Statement) : ofBody false body = (ofBody true body).undeferred := by
  have himports : (declarations body).flatMap (importsOf false) =
      ((declarations body).flatMap (importsOf true)).map fun i ↦
        { i with request := i.request.undeferred } := by
    rw [List.map_flatMap]
    refine List.flatMap_congr fun d _ ↦ ?_
    cases d <;> simp [importsOf, normalize, Request.undeferred]
  have hindirect : (declarations body).flatMap (indirectExportsOf false) =
      ((declarations body).flatMap (indirectExportsOf true)).map fun x ↦
        { x with request := x.request.undeferred } := by
    rw [List.map_flatMap]
    refine List.flatMap_congr fun d _ ↦ ?_
    cases d with
    | exportAll exported r => cases exported <;> simp [indirectExportsOf, normalize, Request.undeferred]
    | _ => simp [indirectExportsOf, normalize, Request.undeferred]
  have hstar : (declarations body).flatMap (starExportsOf false) =
      ((declarations body).flatMap (starExportsOf true)).map (·.undeferred) := by
    rw [List.map_flatMap]
    refine List.flatMap_congr fun d _ ↦ ?_
    cases d with
    | exportAll exported r => cases exported <;> simp [starExportsOf, normalize, Request.undeferred]
    | _ => simp [starExportsOf]
  have hrequested : requested false body = (requested true body).map (·.undeferred) := by
    rw [requested, requested, List.map_map]
    rfl
  have hrequests : (requested false body).foldl addRequest [] =
      ((requested true body).foldl addRequest []).map (·.undeferred) := by
    rw [undeferred_foldl, hrequested]
    rfl
  have hreexports := undeferred_reexport? ((declarations body).flatMap (importsOf true))
  rw [← himports] at hreexports
  unfold ofBody undeferred
  dsimp only
  rw [Entries.mk.injEq]
  refine ⟨hrequests, himports, ?_, ?_, hstar, rfl⟩
  · simp [hreexports]
  · rw [List.map_append, List.map_filterMap, hindirect, funext hreexports]

/-! ### Sorted attributes -/

theorem sorted_insertAttribute {a : Attribute} {as : List Attribute}
    (h : as.Pairwise fun a b ↦ a.key ≤ b.key) :
    (insertAttribute a as).Pairwise fun a b ↦ a.key ≤ b.key := by
  induction as with
  | nil => exact List.pairwise_singleton _ _
  | cons b as ih =>
    obtain ⟨hb, has⟩ := List.pairwise_cons.1 h
    rw [insertAttribute]
    split
    · next hlt =>
      refine List.pairwise_cons.2 ⟨fun x hx ↦ ?_, ih has⟩
      rcases List.mem_cons.1 ((insertAttribute_perm a as).subset hx) with rfl | hx
      · exact String.not_lt.1 (String.lt_asymm hlt)
      · exact hb x hx
    · next hnot =>
      have hab : a.key ≤ b.key := String.not_lt.1 hnot
      refine List.pairwise_cons.2 ⟨fun x hx ↦ ?_, h⟩
      rcases List.mem_cons.1 hx with rfl | hx
      · exact hab
      · exact String.le_trans hab (hb x hx)

theorem sorted_sortAttributes (as : List Attribute) :
    (sortAttributes as).Pairwise fun a b ↦ a.key ≤ b.key := by
  induction as with
  | nil => exact .nil
  | cons a as ih => exact sorted_insertAttribute ih

/-- Attributes with different keys have one sorted order only. -/
theorem eq_of_perm_of_sorted {as bs : List Attribute} (hd : (as.map (·.key)).Nodup)
    (ha : as.Pairwise fun a b ↦ a.key ≤ b.key) (hb : bs.Pairwise fun a b ↦ a.key ≤ b.key)
    (h : as.Perm bs) : as = bs := by
  refine h.eq_of_pairwise (fun a b ha hb hab hba ↦ ?_) ha hb
  exact List.inj_on_of_nodup_map hd ha (h.symm.subset hb) (String.le_antisymm hab hba)

theorem sorted_of_mem_asked {deferring : Bool} {body : List Statement}
    (hbody : ∀ d ∈ declarations body, d.Proper) {q : Request}
    (hq : q ∈ (ofBody deferring body).asked) :
    q.Distinct ∧ q.attributes.Pairwise fun a b ↦ a.key ≤ b.key := by
  obtain ⟨r, hr, -, hattributes⟩ := exists_requested hbody hq
  have hdistinct := distinct_of_mem_requested hbody r hr
  obtain ⟨d, -, r', -, rfl⟩ := mem_requested.1 hr
  unfold Request.Distinct at hdistinct ⊢
  rw [hattributes]
  exact ⟨hdistinct, sorted_sortAttributes r'.attributes⟩

end Entries

open Syntax Entries

/-! ## The results -/

/-- The list of requests of an accepted text has no two requests for the same module, and is in the order
in which these were first made by the declarations. There is one request in it for each declaration and
for each entry of an import or export, and it is deferred if the declarations for it are all deferred
imports. Where deferred imports are switched off, all entries are the same but for their phases. -/
theorem requests_list_declarations {text : String} {body : List Statement}
    (h : parse? text = some body) (deferring : Bool) :
    ofText? deferring text = some (ofBody deferring body) ∧
      (ofBody deferring body).requests.Pairwise (fun a b ↦ a.same b = false ∧ b.same a = false) ∧
      ((ofBody deferring body).requests.map fun q ↦
        (requested deferring body).findIdx q.same).Pairwise (· < ·) ∧
      (∀ q ∈ (ofBody deferring body).requests, ∃ r ∈ requested deferring body, q.same r = true) ∧
      (∀ r ∈ requested deferring body ++ (ofBody deferring body).asked,
        ∃! q, q ∈ (ofBody deferring body).requests ∧ q.same r = true) ∧
      (∀ q ∈ (ofBody deferring body).requests, q.phase = .defer ↔
        deferring = true ∧ ∀ d ∈ declarations body, ∀ r, requestOf? d = some r →
          q.same r = true → d.isDeferred = true) ∧
      ofText? false text = (ofText? true text).map (·.undeferred) := by
  have hbody := proper_of_parse? h
  have hlists : Lists (requested deferring body) _ := lists_ofBody hbody
  have hmade : ∀ q ∈ requested deferring body, q.Distinct := distinct_of_mem_requested hbody
  have hdistinct := hlists.distinct hmade
  refine ⟨?_, ?_, hlists.ordered, fun q hq ↦ hlists.exists_same hmade hq, fun r hr ↦ ?_,
    fun q hq ↦ phase_eq_defer_iff hbody hq, ?_⟩
  · rw [ofText?, h]
    rfl
  · refine hlists.different.imp_of_mem fun {a b} ha hb hab ↦ ⟨hab, Bool.eq_false_iff.2 fun hba ↦ ?_⟩
    exact absurd (hab.symm.trans ((hdistinct b hb).same_symm hba)) Bool.false_ne_true
  · rcases List.mem_append.1 hr with hr | hr
    · exact hlists.existsUnique hmade hr
    · -- what an entry keeps is the request of a declaration, up to its phase
      obtain ⟨x, hx, hcopies⟩ := exists_requested hbody hr
      have hrx := hcopies.same (hmade x hx)
      have hdr := (sorted_of_mem_asked hbody hr).1
      obtain ⟨q, ⟨hq, hqx⟩, hunique⟩ := hlists.existsUnique hmade hx
      refine ⟨q, ⟨hq, (hdistinct q hq).same_trans hqx (hdr.same_symm hrx)⟩, fun y ⟨hy, hyr⟩ ↦ ?_⟩
      exact hunique y ⟨hy, (hdistinct y hy).same_trans hyr hrx⟩
  · rw [ofText?, ofText?, h, Option.map_some, Option.map_some, Option.map_some, ofBody_false]

/-- A deferred import, another one of another module, and an export from the module of the first one, with
the attributes the other way round. -/
def mixedText : String :=
  "import defer * as a from \"x\" with \x7bt: \"1\", s: \"2\"\x7d; " ++
    "import defer * as b from \"y\"; export * from \"x\" with \x7bs: \"2\", t: \"1\"\x7d"

theorem requests_list_declarations_mixedText :
    ∃ body, parse? mixedText = some body ∧
      (requested true body).length = 3 ∧
      (ofBody true body).requests =
        [⟨"x", [⟨"s", "2"⟩, ⟨"t", "1"⟩], .evaluation⟩, ⟨"y", [], .defer⟩] ∧
      (∀ r ∈ requested true body ++ (ofBody true body).asked,
        ∃! q, q ∈ (ofBody true body).requests ∧ q.same r = true) ∧
      ofText? false mixedText = (ofText? true mixedText).map (·.undeferred) := by
  have hrequests : (ofText? true mixedText).map (·.requests) =
      some [⟨"x", [⟨"s", "2"⟩, ⟨"t", "1"⟩], .evaluation⟩, ⟨"y", [], .defer⟩] := by decide +kernel
  have hlength : (parse? mixedText).map (fun body ↦ (requested true body).length) = some 3 := by
    decide +kernel
  obtain ⟨body, hparse, hlength⟩ := Option.map_eq_some_iff.1 hlength
  obtain ⟨htext, -, -, -, hunique, -, hundeferred⟩ := requests_list_declarations hparse true
  rw [htext] at hrequests
  exact ⟨body, hparse, hlength, Option.some.inj hrequests, hunique, hundeferred⟩

/-- If the keys of the attributes of a request differ, it asks for the same module as another one just
if the specifiers are equal and the attributes of the other one are a permutation of its own. So among
such requests, asking for the same module is an equivalence, and requests that accepted texts keep ask
for the same module just if specifiers and attributes are equal. -/
theorem same_iff_permuted :
    (∀ left right : Request, left.Distinct →
      (left.same right = true ↔
        left.specifier = right.specifier ∧ right.attributes.Perm left.attributes)) ∧
      Equivalence (fun a b : { r : Request // r.Distinct } ↦ a.1.same b.1 = true) ∧
      ∀ deferring deferring' text text' e e', ofText? deferring text = some e →
        ofText? deferring' text' = some e' → ∀ a ∈ e.asked, ∀ b ∈ e'.asked,
          (a.same b = true ↔ a.specifier = b.specifier ∧ a.attributes = b.attributes) := by
  refine ⟨fun left right h ↦ ?_, ⟨fun a ↦ a.2.same_self, fun {a _} h ↦ a.2.same_symm h,
    fun {a _ _} h h' ↦ a.2.same_trans h h'⟩, ?_⟩
  · rw [Request.same_iff h, List.perm_comm]
  · intro deferring deferring' text text' e e' he he' a ha b hb
    obtain ⟨body, hbody, rfl⟩ := Option.map_eq_some_iff.1 he
    obtain ⟨body', hbody', rfl⟩ := Option.map_eq_some_iff.1 he'
    obtain ⟨hda, hsa⟩ := sorted_of_mem_asked (proper_of_parse? hbody) ha
    obtain ⟨-, hsb⟩ := sorted_of_mem_asked (proper_of_parse? hbody') hb
    rw [Request.same_iff hda]
    refine and_congr_right fun _ ↦ ⟨eq_of_perm_of_sorted hda hsa hsb, fun h ↦ ?_⟩
    rw [h]

/-- What is repeated on the right side is counted, so it is not missed that something is missing. -/
theorem same_iff_permuted_repeated :
    (Request.mk "x" [⟨"a", "1"⟩, ⟨"b", "2"⟩] .defer).Distinct ∧
      (Request.mk "x" [⟨"a", "1"⟩, ⟨"b", "2"⟩] .defer).same
        ⟨"x", [⟨"b", "2"⟩, ⟨"a", "1"⟩], .evaluation⟩ = true ∧
      (Request.mk "x" [⟨"a", "1"⟩, ⟨"b", "2"⟩] .defer).same
        ⟨"x", [⟨"a", "1"⟩, ⟨"a", "1"⟩], .defer⟩ = false := by
  have hd : (Request.mk "x" [⟨"a", "1"⟩, ⟨"b", "2"⟩] .defer).Distinct := by
    unfold Request.Distinct
    decide
  refine ⟨hd, (same_iff_permuted.1 _ _ hd).2 ⟨rfl, .swap _ _ _⟩, Bool.eq_false_iff.2 fun h ↦ ?_⟩
  have hmem := (((same_iff_permuted.1 _ _ hd).1 h).2.symm).subset (a := ⟨"b", "2"⟩) (by simp)
  simp at hmem

end EcmaModules
