import EcmaModules.Proofs.Fading
import EcmaModules.Proofs.Bonds
import EcmaModules.Proofs.Execution
import Mathlib.Order.Bounds.Basic

/-!
# Which modules are set free

When a module has finished, those that waited for nothing else are set free, and so are those that waited
for nothing but the module and such of these as do not await. That is a least set: nothing is in it unless
whatever it waits for has finished, or is in it for the same reason.

The modules are found by counting. Each module that is through tells those that wait for it, and whoever
has been told by all that it waits for is set free. What is kept of this is who has told whom
(`Store.Told`): a count is what it was in the beginning less the number of those that have told. As nobody
tells twice, and nobody tells who is not waited for, a count comes to zero with the last one that tells. So
it does not matter in which order modules tell.

## What is assumed

The counts have to be right in the beginning, for whatever they say is believed. Besides, two assertions
are relied on that are made of each module that is told: that its count is not zero yet, and that it is
pending, which matters if others wait for it. A module that is told although it counts nothing would be set
free by that, and one that tells without being pending is in no count.
-/

namespace EcmaModules

namespace Store

variable {s s' : Store} {m d p x : ModuleId} {F ps : List ModuleId} {T : List (ModuleId × ModuleId)}

/-! ## Who waits for whom -/

/-- The number of modules that a module counts. -/
def count (s : Store) (p : ModuleId) : Nat :=
  ((s.source? p).map (·.pendingAsync)).getD 0

/-- The module waits: it is not over, it counts others, and its component has not failed. -/
def Waits (s : Store) (p : ModuleId) : Prop :=
  s.isBeyondWaiting p = false ∧ 0 < s.count p

/-- The module waits, or others do because of it. -/
def isPending (s : Store) (d : ModuleId) : Bool :=
  (s.source? d).any (·.asyncState = .pending)

/-- The modules that a module waits for, when another one has just finished. -/
def waitedOn (s : Store) (m p : ModuleId) : List ModuleId :=
  ((List.range s.modules.size).map ModuleId.mk).filter fun d ↦
    (d = m || s.isPending d) && (s.parents d).contains p

/-- The module has finished, or is among modules that count as such without being executed first: it is
one of the given ones and does not await. -/
def Through (s : Store) (m : ModuleId) (X : Set ModuleId) (d : ModuleId) : Prop :=
  d = m ∨ d ∈ X ∧ (s.entries d).awaits = false

/-- The sets that contain, with whatever a waiting module waits for, as far as that counts as finished, the
module itself. -/
def Releasing (s : Store) (m : ModuleId) : Set (Set ModuleId) :=
  {X | ∀ p, s.Waits p → (∀ d ∈ s.waitedOn m p, s.Through m X d) → p ∈ X}

/-- The modules that are in all such sets. -/
def released (s : Store) (m : ModuleId) : Set ModuleId :=
  {p | ∀ X ∈ s.Releasing m, p ∈ X}

/-- A module has just finished, and those that wait for others count them rightly. -/
structure Primed (s : Store) (m : ModuleId) : Prop where
  finished : ∃ r, s.source? m = some r ∧ r.status = .evaluated ∧ r.asyncState = .settled
  distinct : ∀ d, (s.parents d).Nodup
  exact : ∀ p, s.Waits p → s.count p = (s.waitedOn m p).length
  /-- Whoever is told counts something, and is pending if anyone waits for it. -/
  asserted : ∀ d p r, s.Through m (s.released m) d → p ∈ s.parents d → s.source? p = some r →
    s.isBeyondWaiting p = false →
    0 < r.pendingAsync ∧ ∀ q ∈ s.parents p, s.Waits q → r.asyncState = .pending

theorem index_lt_of_mem_parents (h : p ∈ s.parents d) : d.index < s.modules.size := by
  refine index_lt_of_source (Option.ne_none_iff_isSome.1 fun hd ↦ ?_)
  rw [parents, hd] at h
  exact List.not_mem_nil h

theorem mem_waitedOn : d ∈ s.waitedOn m p ↔ (d = m ∨ s.isPending d = true) ∧ p ∈ s.parents d := by
  obtain ⟨i⟩ := d
  simp only [waitedOn, List.mem_filter, List.mem_map, List.mem_range, Bool.and_eq_true, Bool.or_eq_true,
    decide_eq_true_eq, List.contains_iff_mem]
  refine ⟨And.right, fun h ↦ ⟨⟨i, index_lt_of_mem_parents h.2, rfl⟩, h⟩⟩

theorem Through.mono {X Y : Set ModuleId} (h : s.Through m X d) (hXY : X ⊆ Y) : s.Through m Y d :=
  h.imp_right fun hd ↦ ⟨hXY hd.1, hd.2⟩

theorem Waits.isSome (h : s.Waits p) : (s.source? p).isSome := by
  refine Option.ne_none_iff_isSome.1 fun hp ↦ ?_
  have hcount := h.2
  rw [count, hp] at hcount
  exact Nat.lt_irrefl 0 hcount

theorem Primed.not_waits (h : s.Primed m) : ¬s.Waits m := fun hm ↦ by
  obtain ⟨r, hr, hstatus, -⟩ := h.finished
  have hover := hm.1
  simp [isBeyondWaiting, status?, hr, hstatus] at hover

/-! ## Who has told whom -/

/-- How many have told a module. -/
def toldOf (T : List (ModuleId × ModuleId)) (p : ModuleId) : List ModuleId :=
  (T.filter (·.2 = p)).map Prod.fst

theorem mem_toldOf : d ∈ toldOf T p ↔ (d, p) ∈ T := by
  simp [toldOf]

theorem nodup_toldOf (hT : T.Nodup) (p : ModuleId) : (toldOf T p).Nodup := by
  refine (hT.filter _).map_on fun x hx y hy hxy ↦ Prod.ext hxy ?_
  have hx := (List.mem_filter.1 hx).2
  have hy := (List.mem_filter.1 hy).2
  rw [decide_eq_true_eq] at hx hy
  rw [hx, hy]

theorem toldOf_cons_self (d p : ModuleId) (T : List (ModuleId × ModuleId)) :
    toldOf ((d, p) :: T) p = d :: toldOf T p := by
  simp [toldOf]

theorem toldOf_cons_of_ne (h : x ≠ p) (d : ModuleId) (T : List (ModuleId × ModuleId)) :
    toldOf ((d, p) :: T) x = toldOf T x := by
  simp [toldOf, Ne.symm h]

/-- The store and the modules set free after some have told others. -/
structure Told (s : Store) (m : ModuleId) (T : List (ModuleId × ModuleId)) (s' : Store)
    (F : List ModuleId) : Prop where
  once : T.Nodup
  tells : ∀ x ∈ T, s.Through m {p | p ∈ F} x.1 ∧ x.2 ∈ s.parents x.1 ∧ s.Waits x.2
  record : ∀ x, s'.source? x =
    (s.source? x).map fun r ↦ { r with pendingAsync := r.pendingAsync - (toldOf T x).length }
  different : F.Nodup
  free : ∀ p, p ∈ F ↔ s.Waits p ∧ s.count p ≤ (toldOf T p).length
  order : ∀ F₁ p F₂, F = F₁ ++ p :: F₂ → ∀ d ∈ s.waitedOn m p, s.Through m {x | x ∈ F₁} d

namespace Told

theorem nil (s : Store) (m : ModuleId) : s.Told m [] s [] := by
  refine ⟨.nil, nofun, fun x ↦ by simp [toldOf], .nil, fun p ↦ ?_, by simp⟩
  refine ⟨nofun, fun h ↦ ?_⟩
  have hcount := h.1.2
  have hzero : s.count p ≤ 0 := h.2
  omega

theorem waits (h : s.Told m T s' F) (hp : p ∈ F) : s.Waits p := ((h.free p).1 hp).1

theorem isBeyondWaiting (h : s.Told m T s' F) (p : ModuleId) :
    s'.isBeyondWaiting p = s.isBeyondWaiting p := by
  have hroot : s'.cycleRoot p = s.cycleRoot p := by
    unfold cycleRoot
    rw [h.record]
    cases s.source? p <;> rfl
  have herror : ∀ x, s'.evaluationError? x = s.evaluationError? x := fun x ↦ by
    unfold evaluationError?
    rw [h.record]
    cases s.source? x <;> rfl
  have hstatus : s'.status? p = s.status? p := by
    unfold status?
    rw [h.record]
    cases s.source? p <;> rfl
  rw [Store.isBeyondWaiting, hroot, herror, hstatus, Store.isBeyondWaiting]

theorem parents (h : s.Told m T s' F) (p : ModuleId) : s'.parents p = s.parents p := by
  unfold Store.parents
  rw [h.record]
  cases s.source? p <;> rfl

theorem count (h : s.Told m T s' F) (p : ModuleId) :
    s'.count p = s.count p - (toldOf T p).length := by
  unfold Store.count
  rw [h.record]
  cases s.source? p with
  | none => exact (Nat.zero_sub _).symm
  | some r => rfl

/-- By induction on the place in the list, since whatever a module waits for comes before it. -/
theorem subset_released (h : s.Told m T s' F) : {p | p ∈ F} ⊆ s.released m := by
  intro p hp X hX
  have hmem : ∀ n F₁ p F₂, F₁.length = n → F = F₁ ++ p :: F₂ → p ∈ X := by
    intro n
    induction n using Nat.strong_induction_on with
    | _ n ih =>
      rintro F₁ p F₂ rfl hsplit
      have hwaits : s.Waits p := h.waits (by simp [hsplit])
      refine hX p hwaits fun d hd ↦ (h.order F₁ p F₂ hsplit d hd).imp_right fun ⟨hd, hw⟩ ↦ ⟨?_, hw⟩
      obtain ⟨A, B, rfl⟩ := List.append_of_mem hd
      exact ih A.length (by simp) A d (B ++ p :: F₂) rfl (by simp [hsplit])
  obtain ⟨F₁, F₂, hsplit⟩ := List.append_of_mem hp
  exact hmem _ F₁ p F₂ rfl hsplit

/-- A module that was set free has been told by one that is through. -/
theorem exists_teller (h : s.Told m T s' F) (hp : p ∈ F) :
    ∃ d, s.Through m {x | x ∈ F} d ∧ p ∈ s.parents d := by
  obtain ⟨hwaits, hcount⟩ := (h.free p).1 hp
  obtain ⟨d, hd⟩ := List.exists_mem_of_length_pos (hwaits.2.trans_le hcount)
  obtain ⟨hthrough, hparent, -⟩ := h.tells _ (mem_toldOf.1 hd)
  exact ⟨d, hthrough, hparent⟩

variable (hs : s.Primed m)

include hs

/-- Whoever tells a module is waited for by it. -/
theorem mem_waitedOn (h : s.Told m T s' F) (hd : s.Through m {p | p ∈ F} d) (hp : p ∈ s.parents d)
    (hwaits : s.Waits p) : d ∈ s.waitedOn m p := by
  refine Store.mem_waitedOn.2 ⟨hd.imp_right fun hd ↦ ?_, hp⟩
  obtain ⟨e, he, hde⟩ := h.exists_teller hd.1
  have hwaits' := h.waits hd.1
  obtain ⟨r, hr⟩ := Option.isSome_iff_exists.1 hwaits'.isSome
  have hpending := (hs.asserted e d r (he.mono h.subset_released) hde hr hwaits'.1).2 p hp hwaits
  simp [isPending, hr, hpending]

theorem subset_waitedOn (h : s.Told m T s' F) (p : ModuleId) : toldOf T p ⊆ s.waitedOn m p := fun d hd ↦ by
  obtain ⟨hthrough, hp, hwaits⟩ := h.tells _ (mem_toldOf.1 hd)
  exact h.mem_waitedOn hs hthrough hp hwaits

/-- A module that was set free was told by all that it waits for. -/
theorem told_of_free (h : s.Told m T s' F) (hp : p ∈ F) (hd : d ∈ s.waitedOn m p) : (d, p) ∈ T := by
  obtain ⟨hwaits, hcount⟩ := (h.free p).1 hp
  have hsub := (nodup_toldOf h.once p).subperm (h.subset_waitedOn hs p)
  have hperm := hsub.perm_of_length_le (hs.exact p hwaits ▸ hcount)
  exact mem_toldOf.1 (hperm.mem_iff.2 hd)

/-- A module that is told, and has not been told by the same one before, was not set free before. -/
theorem not_free (h : s.Told m T s' F) (hd : s.Through m {p | p ∈ F} d) (hp : p ∈ s.parents d)
    (hnew : (d, p) ∉ T) : p ∉ F := fun hfree ↦
  hnew (h.told_of_free hs hfree (h.mem_waitedOn hs hd hp (h.waits hfree)))

/-- A waiting module is told once more. -/
theorem tell (h : s.Told m T s' F) (hd : s.Through m {p | p ∈ F} d) (hp : p ∈ s.parents d)
    (hwaits : s.Waits p) (hnew : (d, p) ∉ T) {F' : List ModuleId}
    (hF' : F' = if s'.count p - 1 = 0 then F ++ [p] else F) :
    s.Told m ((d, p) :: T) (s'.lessen p) F' := by
  have hout := h.not_free hs hd hp hnew
  have hsub : {x | x ∈ F} ⊆ {x | x ∈ F'} := fun x hx ↦ by
    change x ∈ F'
    rw [hF']
    split
    · exact List.mem_append_left _ hx
    · exact hx
  have hmore : ¬s.count p ≤ (toldOf T p).length := fun hle ↦ hout ((h.free p).2 ⟨hwaits, hle⟩)
  have honce : ((d, p) :: T).Nodup := List.nodup_cons.2 ⟨hnew, h.once⟩
  -- the count comes to zero with the last one that tells
  have hzero : s'.count p - 1 = 0 ↔ s.count p ≤ (toldOf ((d, p) :: T) p).length := by
    rw [h.count, toldOf_cons_self, List.length_cons]
    omega
  refine ⟨honce, List.forall_mem_cons.2 ⟨⟨hd.mono hsub, hp, hwaits⟩, fun x hx ↦ ?_⟩, fun x ↦ ?_, ?_,
    fun x ↦ ?_, ?_⟩
  · obtain ⟨hthrough, hx⟩ := h.tells x hx
    exact ⟨hthrough.mono hsub, hx⟩
  · rw [lessen, source?_modifySource, h.record]
    split
    · next hx =>
      subst hx
      rw [toldOf_cons_self, Option.map_map]
      refine congrArg (fun f ↦ (s.source? x).map f) (funext fun r ↦ ?_)
      simp only [Function.comp_apply, List.length_cons, Nat.sub_sub]
    · next hx => rw [toldOf_cons_of_ne hx]
  · rw [hF']
    split
    · exact List.nodup_append.2 ⟨h.different, List.nodup_singleton p, fun x hx y hy ↦ by
        rw [List.mem_singleton.1 hy]
        exact fun heq ↦ hout (heq ▸ hx)⟩
    · exact h.different
  · by_cases hx : x = p
    · subst hx
      rw [← hzero, hF']
      split
      · next h0 => simp [hwaits, h0]
      · next h0 => simp [hout, h0]
    · rw [toldOf_cons_of_ne hx, ← h.free, hF']
      split
      · simp [hx]
      · rfl
  · intro F₁ x F₂ hsplit
    rw [hF'] at hsplit
    split at hsplit
    · next h0 =>
      rcases List.eq_nil_or_concat F₂ with rfl | ⟨F₃, y, rfl⟩
      · -- the module that was set free last
        obtain ⟨rfl, heq⟩ := List.append_inj' hsplit rfl
        obtain rfl : p = x := List.singleton_inj.1 heq
        have hsubset : toldOf ((d, p) :: T) p ⊆ s.waitedOn m p := fun y hy ↦ by
          rw [toldOf_cons_self] at hy
          rcases List.mem_cons.1 hy with rfl | hy
          · exact h.mem_waitedOn hs hd hp hwaits
          · exact h.subset_waitedOn hs p hy
        have hsub := (nodup_toldOf honce p).subperm hsubset
        have hperm := hsub.perm_of_length_le (hs.exact p hwaits ▸ hzero.1 h0)
        intro y hy
        have hy := hperm.mem_iff.2 hy
        rw [toldOf_cons_self] at hy
        rcases List.mem_cons.1 hy with rfl | hy
        · exact hd
        · exact (h.tells _ (mem_toldOf.1 hy)).1
      · rw [List.concat_eq_append, ← List.cons_append, ← List.append_assoc] at hsplit
        exact h.order F₁ x F₃ (List.append_inj' hsplit rfl).1
    · exact h.order F₁ x F₂ hsplit

end Told

/-! ## All that are to be told are told -/

/-- A module has told those given, and those that were set free by that have told all that they have to. -/
structure Relays (s : Store) (m : ModuleId) (T : List (ModuleId × ModuleId)) (F : List ModuleId)
    (d : ModuleId) (ps : List ModuleId) (acc : Store × List ModuleId)
    (T' : List (ModuleId × ModuleId)) : Prop where
  told : s.Told m T' acc.1 acc.2
  more : F <+: acc.2
  all : ∀ p ∈ ps, s.Waits p → (d, p) ∈ T'
  older : T ⊆ T'
  newer : ∀ x ∈ T', x ∈ T ∨ x.1 = d ∧ x.2 ∈ ps ∨ x.1 ∈ acc.2 ∧ x.1 ∉ F
  down : ∀ f ∈ acc.2, f ∉ F → (s.entries f).awaits = false → ∀ p ∈ s.parents f, s.Waits p → (f, p) ∈ T'

theorem Told.length_le (h : s.Told m T s' F) : F.length ≤ s.modules.size :=
  length_le_size h.different fun _ hx ↦ (h.waits hx).isSome

section

variable {depth : Nat} (hs : s.Primed m)

include hs

/-- One parent is told. -/
theorem Told.tellsParent
    (hdown : ∀ s' p F T, s.Told m T s' F → p ∈ F → (s.entries p).awaits = false →
      (∀ q, (p, q) ∉ T) → s.modules.size + 1 ≤ depth + F.length →
      ∃ T', s.Relays m T F p (s.parents p) (s'.gatherFrom depth p F) T')
    (h : s.Told m T s' F) (hd : s.Through m {p | p ∈ F} d) (hp : p ∈ s.parents d) (hnew : (d, p) ∉ T)
    (hdepth : s.modules.size ≤ depth + F.length) :
    ∃ T', s.Relays m T F d [p] (gatherParent depth (s', F) p) T' := by
  have hout := h.not_free hs hd hp hnew
  -- nothing is done for a module that does not wait
  have hskip : ¬s.Waits p → s.Relays m T F d [p] (s', F) T := fun hnot ↦
    ⟨h, List.prefix_refl F, by simp [hnot], List.Subset.refl T, fun x hx ↦ .inl hx,
      fun f hf hnotin ↦ absurd hf hnotin⟩
  rcases gatherParent_cases depth s' F p with ⟨hover, heq⟩ | ⟨r, -, hbeyond, hr, hcase⟩
  · rw [heq]
    refine ⟨T, hskip fun hwaits ↦ ?_⟩
    rcases hover with hover | hover | hover
    · exact hout hover
    · rw [h.isBeyondWaiting] at hover
      exact Bool.false_ne_true (hwaits.1.symm.trans hover)
    · rw [h.record, Option.map_eq_none_iff] at hover
      exact absurd hwaits.isSome (by simp [hover])
  rw [h.isBeyondWaiting] at hbeyond
  have hrecord := h.record p
  rw [hr] at hrecord
  obtain ⟨r₀, hr₀, heq₀⟩ := Option.map_eq_some_iff.1 hrecord.symm
  have hcount₀ : s.count p = r₀.pendingAsync := by simp [Store.count, hr₀]
  have hwaits : s.Waits p :=
    ⟨hbeyond, hcount₀ ▸ (hs.asserted d p r₀ (hd.mono h.subset_released) hp hr₀ hbeyond).1⟩
  have hcount : s'.count p = r.pendingAsync := by simp [Store.count, hr]
  have htell := h.tell hs hd hp hwaits hnew rfl
  rw [hcount] at htell
  have hawaits : r.entries = s.entries p := by
    rw [Store.entries, hr₀, ← heq₀]
    rfl
  rcases hcase with ⟨h0, heq⟩ | ⟨h0, heq⟩
  · rw [if_neg h0] at htell
    refine ⟨(d, p) :: T, heq ▸ ⟨htell, List.prefix_refl F, by simp, List.subset_cons_self _ _, ?_,
      fun f hf hnotin ↦ absurd hf hnotin⟩⟩
    exact List.forall_mem_cons.2 ⟨.inr (.inl ⟨rfl, List.mem_singleton_self p⟩), fun x hx ↦ .inl hx⟩
  rw [if_pos h0] at htell
  have hmem : p ∈ F ++ [p] := List.mem_append_right F (List.mem_singleton_self p)
  rw [heq, hawaits]
  cases hw : (s.entries p).awaits with
  | true =>
    rw [if_pos rfl]
    refine ⟨(d, p) :: T, htell, List.prefix_append F _, by simp, List.subset_cons_self _ _, ?_, ?_⟩
    · exact List.forall_mem_cons.2 ⟨.inr (.inl ⟨rfl, List.mem_singleton_self p⟩), fun x hx ↦ .inl hx⟩
    · intro f hf hnotin hf'
      rcases List.mem_append.1 hf with hf | hf
      · exact absurd hf hnotin
      · rw [List.mem_singleton.1 hf, hw] at hf'
        exact absurd hf' (by simp)
  | false =>
    rw [if_neg Bool.false_ne_true]
    have hsilent : ∀ q, (p, q) ∉ (d, p) :: T := fun q hq ↦ by
      rcases List.mem_cons.1 hq with heq | hq
      · obtain ⟨rfl, -⟩ := Prod.mk.inj heq
        rcases hd with rfl | hd
        · exact hs.not_waits hwaits
        · exact hout hd.1
      · rcases (h.tells _ hq).1 with hpm | hpF
        · exact hs.not_waits (hpm ▸ hwaits)
        · exact hout hpF.1
    obtain ⟨T', htells⟩ := hdown _ p _ _ htell hmem hw hsilent (by
      rw [List.length_append, List.length_singleton]
      omega)
    refine ⟨T', htells.told, (List.prefix_append F _).trans htells.more, ?_,
      List.Subset.trans (List.subset_cons_self _ _) htells.older, fun x hx ↦ ?_, fun f hf hnotin hf' ↦ ?_⟩
    · rintro q hq -
      rw [List.mem_singleton.1 hq]
      exact htells.older List.mem_cons_self
    · rcases htells.newer x hx with hx | hx | ⟨hx, hnotin⟩
      · rcases List.mem_cons.1 hx with rfl | hx
        · exact .inr (.inl ⟨rfl, List.mem_singleton_self p⟩)
        · exact .inl hx
      · exact .inr (.inr ⟨hx.1 ▸ htells.more.subset hmem, hx.1 ▸ hout⟩)
      · exact .inr (.inr ⟨hx, fun hF ↦ hnotin (List.mem_append_left _ hF)⟩)
    · by_cases hfp : f = p
      · subst hfp
        exact htells.all
      · refine htells.down f hf (fun hmem ↦ ?_) hf'
        rcases List.mem_append.1 hmem with hF | hF
        · exact hnotin hF
        · exact hfp (List.mem_singleton.1 hF)

/-- Parents are told one after the other. -/
theorem Told.tellsParents
    (hdown : ∀ s' p F T, s.Told m T s' F → p ∈ F → (s.entries p).awaits = false →
      (∀ q, (p, q) ∉ T) → s.modules.size + 1 ≤ depth + F.length →
      ∃ T', s.Relays m T F p (s.parents p) (s'.gatherFrom depth p F) T')
    (hps : ps ⊆ s.parents d) (hdistinct : ps.Nodup) :
    ∀ {s' F T}, s.Told m T s' F → s.Through m {p | p ∈ F} d → (∀ p ∈ ps, (d, p) ∉ T) →
      s.modules.size ≤ depth + F.length →
      ∃ T', s.Relays m T F d ps (ps.foldl (gatherParent depth) (s', F)) T' := by
  induction ps with
  | nil =>
    intro s' F T h _ _ _
    exact ⟨T, h, List.prefix_refl F, nofun, List.Subset.refl T, fun x hx ↦ .inl hx,
      fun f hf hnotin ↦ absurd hf hnotin⟩
  | cons p ps ih =>
    intro s' F T h hd hnew hdepth
    obtain ⟨hpd, hps⟩ := List.cons_subset.1 hps
    obtain ⟨hp, hdistinct⟩ := List.nodup_cons.1 hdistinct
    obtain ⟨T₁, h₁⟩ := h.tellsParent hs hdown hd hpd (hnew p List.mem_cons_self) hdepth
    have hsub : {x | x ∈ F} ⊆ {x | x ∈ (gatherParent depth (s', F) p).2} := fun x hx ↦ h₁.more.subset hx
    have hself : d ∈ (gatherParent depth (s', F) p).2 → d ∈ F := fun hmem ↦ by
      rcases hd with rfl | hd
      · exact absurd (h₁.told.waits hmem) hs.not_waits
      · exact hd.1
    have hnew₁ : ∀ q ∈ ps, (d, q) ∉ T₁ := fun q hq hmem ↦ by
      rcases h₁.newer _ hmem with hmem | ⟨-, hmem⟩ | ⟨hmem, hnotin⟩
      · exact hnew q (List.mem_cons_of_mem p hq) hmem
      · exact hp (List.mem_singleton.1 hmem ▸ hq)
      · exact hnotin (hself hmem)
    obtain ⟨T₂, h₂⟩ := ih hps hdistinct h₁.told (hd.mono hsub) hnew₁
      (hdepth.trans (Nat.add_le_add_left h₁.more.length_le depth))
    refine ⟨T₂, h₂.told, h₁.more.trans h₂.more, ?_, List.Subset.trans h₁.older h₂.older, fun x hx ↦ ?_,
      fun f hf hnotin hf' q hq hwaits ↦ ?_⟩
    · exact List.forall_mem_cons.2
        ⟨fun hwaits ↦ h₂.older (h₁.all p (List.mem_singleton_self p) hwaits), h₂.all⟩
    · rcases h₂.newer x hx with hx | ⟨hxd, hx⟩ | ⟨hx, hnotin⟩
      · rcases h₁.newer x hx with hx | ⟨hxd, hx⟩ | ⟨hx, hnotin⟩
        · exact .inl hx
        · exact .inr (.inl ⟨hxd, List.mem_singleton.1 hx ▸ List.mem_cons_self⟩)
        · exact .inr (.inr ⟨h₂.more.subset hx, hnotin⟩)
      · exact .inr (.inl ⟨hxd, List.mem_cons_of_mem p hx⟩)
      · exact .inr (.inr ⟨hx, fun hF ↦ hnotin (hsub hF)⟩)
    · by_cases hmem : f ∈ (gatherParent depth (s', F) p).2
      · exact h₂.older (h₁.down f hmem hnotin hf' q hq hwaits)
      · exact h₂.down f hf hmem hf' q hq hwaits

/-- A module tells all of its parents. The bound on the depth is not reached. -/
theorem Told.tellsAll (depth : Nat) : ∀ {d s' F T}, s.Told m T s' F → s.Through m {p | p ∈ F} d →
    (∀ q, (d, q) ∉ T) → s.modules.size + 1 ≤ depth + F.length →
    ∃ T', s.Relays m T F d (s.parents d) (s'.gatherFrom depth d F) T' := by
  induction depth with
  | zero =>
    intro d s' F T h _ _ hdepth
    have := h.length_le
    omega
  | succ depth ih =>
    intro d s' F T h hd hnew hdepth
    have hparents : ((s'.source? d).map (·.asyncParents)).getD [] = s.parents d := h.parents d
    rw [gatherFrom_succ, hparents]
    refine h.tellsParents hs (fun s' p F T h hp hw ↦ ih h (.inr ⟨hp, hw⟩))
      (List.Subset.refl _) (hs.distinct d) hd (fun q _ ↦ hnew q) (by omega)

/-- Gathering from the module that has finished. -/
theorem Primed.tells (hdepth : s.modules.size < depth) :
    ∃ T, s.Relays m [] [] m (s.parents m) (s.gatherFrom depth m []) T :=
  (Told.nil s m).tellsAll hs depth (.inl rfl) nofun hdepth

end

/-! ## The bound on the depth -/

/-- The modules that were set free are different ones. -/
structure Listed (n : Nat) (acc : Store × List ModuleId) : Prop where
  different : acc.2.Nodup
  known : ∀ x ∈ acc.2, (acc.1.source? x).isSome
  size : acc.1.modules.size = n

variable {n depth : Nat}

theorem Listed.lessen (h : Listed n (s, F)) (p : ModuleId) : Listed n (s.lessen p, F) :=
  ⟨h.different, fun x hx ↦ by
    rw [isSome_source?_lessen]
    exact h.known x hx, (s.size_lessen p).trans h.size⟩

theorem Listed.add (h : Listed n (s, F)) (hp : (s.source? p).isSome) (hnew : p ∉ F) :
    Listed n (s.lessen p, F ++ [p]) := by
  refine ⟨List.nodup_append.2 ⟨h.different, List.nodup_singleton p, fun x hx y hy ↦ ?_⟩, fun x hx ↦ ?_,
    (s.size_lessen p).trans h.size⟩
  · rw [List.mem_singleton.1 hy]
    exact fun heq ↦ hnew (heq ▸ hx)
  · rw [isSome_source?_lessen]
    rcases List.mem_append.1 hx with hx | hx
    · exact h.known x hx
    · rwa [List.mem_singleton.1 hx]

/-- Whoever is told, at depths that both suffice, the same comes of it, and the list gets no shorter. -/
theorem Listed.gatherParent {k : Nat} {acc : Store × List ModuleId} (h : Listed n acc)
    (hdown : ∀ {s m F}, Listed n (s, F) → n + 1 ≤ depth + F.length → n + 1 ≤ k + F.length →
      s.gatherFrom depth m F = s.gatherFrom k m F ∧ Listed n (s.gatherFrom depth m F) ∧
        F.length ≤ (s.gatherFrom depth m F).2.length)
    (hdepth : n ≤ depth + acc.2.length) (hdepth' : n ≤ k + acc.2.length) (p : ModuleId) :
    Store.gatherParent depth acc p = Store.gatherParent k acc p ∧
      Listed n (Store.gatherParent depth acc p) ∧
      acc.2.length ≤ (Store.gatherParent depth acc p).2.length := by
  obtain ⟨s, F⟩ := acc
  rcases gatherParent_cases depth s F p with ⟨hover, heq⟩ | ⟨r, hnew, hbeyond, hp, hcase⟩
  · rcases gatherParent_cases k s F p with ⟨-, heq'⟩ | ⟨r, hnew, hbeyond, hp, -⟩
    · rw [heq, heq']
      exact ⟨rfl, h, Nat.le_refl _⟩
    · rcases hover with hover | hover | hover
      · exact absurd hover hnew
      · exact absurd hover (by simp [hbeyond])
      · exact absurd hp (by simp [hover])
  · rcases gatherParent_cases k s F p with ⟨hover, -⟩ | ⟨r', -, -, hp', hcase'⟩
    · rcases hover with hover | hover | hover
      · exact absurd hover hnew
      · exact absurd hover (by simp [hbeyond])
      · exact absurd hp (by simp [hover])
    obtain rfl := Option.some.inj (hp.symm.trans hp')
    rcases hcase with ⟨h0, heq⟩ | ⟨h0, heq⟩
    · obtain ⟨-, heq'⟩ := hcase'.resolve_right fun h ↦ h0 h.1
      rw [heq, heq']
      exact ⟨rfl, h.lessen p, Nat.le_refl _⟩
    · obtain ⟨-, heq'⟩ := hcase'.resolve_left fun h ↦ h.1 h0
      have hadd := h.add (Option.isSome_of_mem hp) hnew
      have hlength : (F ++ [p]).length = F.length + 1 := by simp
      rw [heq, heq']
      split
      · exact ⟨rfl, hadd, by simp⟩
      · obtain ⟨hsame, hlisted, hle⟩ := hdown (m := p) hadd (by dsimp only at hdepth; omega)
          (by dsimp only at hdepth'; omega)
        exact ⟨hsame, hlisted, by dsimp only; omega⟩

/-- At depths that both suffice, the same comes of gathering. -/
theorem Listed.gatherFrom (depth : Nat) : ∀ {depth' s m F}, Listed n (s, F) →
    n + 1 ≤ depth + F.length → n + 1 ≤ depth' + F.length →
    s.gatherFrom depth m F = s.gatherFrom depth' m F ∧ Listed n (s.gatherFrom depth m F) ∧
      F.length ≤ (s.gatherFrom depth m F).2.length := by
  have hlength : ∀ {s F}, Listed n (s, F) → F.length ≤ n := fun h ↦
    h.size ▸ length_le_size h.different h.known
  induction depth with
  | zero =>
    intro depth' s m F h hdepth _
    have := hlength h
    omega
  | succ depth ih =>
    intro depth' s m F h hdepth hdepth'
    obtain ⟨depth', rfl⟩ : ∃ k, depth' = k + 1 := Nat.exists_eq_succ_of_ne_zero fun h0 ↦ by
      have := hlength h
      omega
    rw [gatherFrom_succ, gatherFrom_succ]
    generalize ((s.source? m).map (·.asyncParents)).getD [] = ps
    induction ps generalizing s F with
    | nil => exact ⟨rfl, h, Nat.le_refl _⟩
    | cons p ps ihps =>
      obtain ⟨hsame, hlisted, hle⟩ := h.gatherParent (k := depth') ih (by dsimp only; omega)
        (by dsimp only; omega) p
      rw [List.foldl_cons, List.foldl_cons, ← hsame]
      generalize Store.gatherParent depth (s, F) p = acc at hlisted hle ⊢
      obtain ⟨s₁, F₁⟩ := acc
      dsimp only at hle
      obtain ⟨hsame', hlisted', hle'⟩ := ihps hlisted (by omega) (by omega)
      exact ⟨hsame', hlisted', hle.trans hle'⟩

/-- The modules know the same ones that wait for them, in whatever order. -/
structure Reorders (s s' : Store) : Prop where
  size : s'.modules.size = s.modules.size
  each : s.Each (fun r r' ↦ r'.asyncParents.Perm r.asyncParents ∧
    r' = { r with asyncParents := r'.asyncParents }) s'

namespace Reorders

/-- Whatever does not depend on parents is the same. -/
theorem bind_eq (h : s.Reorders s') {α : Type} {f : SourceText → Option α}
    (hf : ∀ r ps, f { r with asyncParents := ps } = f r) (x : ModuleId) :
    (s'.source? x).bind f = (s.source? x).bind f := by
  have hx := h.each x
  revert hx
  cases s.source? x <;> cases s'.source? x <;> rintro ⟨⟩
  · rfl
  · next hrel => rw [Option.bind_some, Option.bind_some, hrel.2, hf]

theorem map_eq (h : s.Reorders s') {α : Type} {f : SourceText → α}
    (hf : ∀ r ps, f { r with asyncParents := ps } = f r) (x : ModuleId) :
    (s'.source? x).map f = (s.source? x).map f := by
  rw [Option.map_eq_bind, Option.map_eq_bind]
  exact h.bind_eq (f := some ∘ f) (fun r ps ↦ congrArg some (hf r ps)) x

theorem perm (h : s.Reorders s') (x : ModuleId) : (s'.parents x).Perm (s.parents x) := by
  have hx := h.each x
  unfold parents
  revert hx
  cases s.source? x <;> cases s'.source? x <;> rintro ⟨⟩
  · exact .nil
  · next hrel => exact hrel.1

theorem isBeyondWaiting (h : s.Reorders s') (p : ModuleId) :
    s'.isBeyondWaiting p = s.isBeyondWaiting p := by
  have hroot : s'.cycleRoot p = s.cycleRoot p := by
    rw [cycleRoot, h.bind_eq fun _ _ ↦ rfl, cycleRoot]
  have herror : ∀ x, s'.evaluationError? x = s.evaluationError? x := fun x ↦ by
    rw [evaluationError?, h.bind_eq fun _ _ ↦ rfl, evaluationError?]
  rw [Store.isBeyondWaiting, hroot, herror, status?, h.map_eq fun _ _ ↦ rfl, Store.isBeyondWaiting,
    status?]

theorem count (h : s.Reorders s') (p : ModuleId) : s'.count p = s.count p := by
  rw [Store.count, h.map_eq fun _ _ ↦ rfl, Store.count]

theorem waits (h : s.Reorders s') (p : ModuleId) : s'.Waits p ↔ s.Waits p := by
  rw [Waits, h.isBeyondWaiting, h.count, Waits]

theorem isPending (h : s.Reorders s') (d : ModuleId) : s'.isPending d = s.isPending d := by
  have hany : ∀ s : Store, s.isPending d = ((s.source? d).map (·.asyncState)).any (· = .pending) :=
    fun s ↦ by rw [Store.isPending, Option.any_map]
  rw [hany, h.map_eq fun _ _ ↦ rfl, ← hany]

theorem waitedOn (h : s.Reorders s') (m p : ModuleId) : s'.waitedOn m p = s.waitedOn m p := by
  unfold Store.waitedOn
  rw [h.size]
  refine List.filter_congr fun d _ ↦ ?_
  rw [h.isPending, Bool.eq_iff_iff, Bool.and_eq_true, Bool.and_eq_true, List.contains_iff_mem,
    List.contains_iff_mem, (h.perm d).mem_iff]

theorem entries (h : s.Reorders s') (d : ModuleId) : s'.entries d = s.entries d := by
  rw [Store.entries, h.map_eq fun _ _ ↦ rfl, Store.entries]

end Reorders

/-! ## The modules that are set free -/

/-- The modules that are through, of one that has finished and of the given ones, and know the module. -/
def tellers (s : Store) (m : ModuleId) (F : List ModuleId) (p : ModuleId) : List ModuleId :=
  (m :: F.filter fun d ↦ !(s.entries d).awaits).filter fun d ↦ (s.parents d).contains p

theorem mem_tellers : d ∈ s.tellers m F p ↔ s.Through m {x | x ∈ F} d ∧ p ∈ s.parents d := by
  simp [tellers, Through]

namespace Relays

variable {acc : Store × List ModuleId} (hs : s.Primed m)
  (h : s.Relays m [] [] m (s.parents m) acc T)

include hs h

/-- Whoever is through has told all who wait for it. -/
theorem told_of_through (hd : s.Through m {x | x ∈ acc.2} d) (hp : p ∈ s.parents d)
    (hwaits : s.Waits p) : (d, p) ∈ T := by
  rcases hd with rfl | ⟨hd, hw⟩
  · exact h.all p hp hwaits
  · exact h.down d hd List.not_mem_nil hw p hp hwaits

/-- A count is less by the number of those that have told. -/
theorem count (hwaits : s.Waits p) (hout : p ∉ acc.2) :
    acc.1.count p + (s.tellers m acc.2 p).length = s.count p := by
  have hnodup : (s.tellers m acc.2 p).Nodup := by
    refine List.Nodup.filter _ (List.nodup_cons.2 ⟨fun hm ↦ ?_, h.told.different.filter _⟩)
    exact hs.not_waits (h.told.waits (List.mem_of_mem_filter hm))
  have hperm : (toldOf T p).Perm (s.tellers m acc.2 p) := by
    refine (List.perm_ext_iff_of_nodup (nodup_toldOf h.told.once p) hnodup).2 fun d ↦ ?_
    rw [mem_toldOf, mem_tellers]
    refine ⟨fun hd ↦ ?_, fun ⟨hd, hp⟩ ↦ h.told_of_through hs hd hp hwaits⟩
    obtain ⟨hthrough, hp, -⟩ := h.told.tells _ hd
    exact ⟨hthrough, hp⟩
  have hmore : ¬s.count p ≤ (toldOf T p).length := fun hle ↦ hout ((h.told.free p).2 ⟨hwaits, hle⟩)
  rw [h.told.count, ← hperm.length_eq]
  omega

end Relays

end Store

/-! ## Runs -/

section

variable {s : Store} {m d p : ModuleId} {r : SourceText} {H : List Event}

/-- Between two calls, whoever waits for a module that is pending, or for one that has just finished,
counts something and is pending. -/
theorem Sound.counts (h : Sound s.outline [] [] [] (s.parents m) H)
    (hd : d = m ∨ s.isPending d = true) (hp : p ∈ s.parents d) (hr : s.source? p = some r)
    (hover : r.status ≠ .evaluated) : 0 < r.pendingAsync ∧ r.asyncState = .pending := by
  have hro := Store.outline_eq_some hr
  obtain ⟨hwalked, U⟩ := h.unwalked hro
  obtain ⟨l, hl, hle⟩ := h.counted p _ hro (by simpa using hover)
  have hpos : 0 < r.outline.waitsFor := by
    rcases hd with rfl | hd
    · have := List.count_pos_iff.2 hp
      omega
    · obtain ⟨q, hq, hpending⟩ := (Option.any_eq_true ..).1 hd
      have hmem : p ∈ q.asyncParents := by simpa [Store.parents, hq] using hp
      have hqo := Store.outline_eq_some hq
      have howes : Owes s.outline ([] ++ []) d p :=
        ⟨q.outline, hqo, (h.lawful d _ hqo).pending (by simpa using hpending), hmem, .inr List.not_mem_nil⟩
      have := List.length_pos_of_mem (hl d howes)
      omega
  simp only [SourceText.waitsFor, SourceText.outline_status, Status.isWaiting_outline,
    SourceText.outline_pendingAsync] at hpos
  split at hpos
  · next hwaiting =>
    refine ⟨hpos, U.waiting ?_⟩
    simp only [SourceText.outline_status, Status.isWalked_outline] at hwalked ⊢
    cases hst : r.status <;> simp_all [Status.isWaiting, Status.isWalked]
  · exact absurd hpos (Nat.lt_irrefl 0)

end

/-! ## The result -/

instance (s : Store) (p : ModuleId) : Decidable (s.Waits p) :=
  inferInstanceAs (Decidable (_ ∧ _))

end EcmaModules
