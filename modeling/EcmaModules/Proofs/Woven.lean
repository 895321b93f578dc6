import Mathlib.Data.List.Pairwise
import Mathlib.Logic.Relation
import Mathlib.Order.MinMax
import Mathlib.Order.Nat

/-!
# What a depth-first walk knows of components

A walk through a graph numbers the places that it enters, and keeps those on a stack whose components it
is not through with. For each place it keeps the earliest number that the place is known to lead back to.
Nothing else is known here of the walk: it may go through any graph, and some parts of the graph may be
*settled*, so that it does not enter them.

When the walk is through with a place that is known to lead back to nothing earlier, the places from there
to the top of the stack are the component of the place (`Woven.popsComponent`). That they lead to
nothing else that is on the stack is one half of it. The other half is that each of them leads back to the
place. For that, the number that is kept for a place has to be that of a place which it does lead to, and
places that the walk is through with, and which are still on the stack, have to lead back to an earlier one.

## Indices instead of parts of the stack

The stack is not divided here into the parts of the places on the path. What lies above a place of the path
is what has a later number, and that is enough to say that the place leads to it.
-/

namespace EcmaModules

variable {α : Type} {R R' : α → α → Prop} {index index' low low' : α → ℕ} {stack path below : List α}
  {m d x y : α}

/-- Each of the places leads to the other one. -/
def Mutual (R : α → α → Prop) (x y : α) : Prop :=
  Relation.ReflTransGen R x y ∧ Relation.ReflTransGen R y x

/-- What is known of the stack of a walk, and of the path to the place that it is at, that one first. -/
structure Woven (R : α → α → Prop) (index low : α → ℕ) (stack path : List α) : Prop where
  /-- The latest place is on top. -/
  sorted : stack.Pairwise fun x y ↦ index y < index x
  mem : ∀ p ∈ path, p ∈ stack
  path_sorted : path.Pairwise fun x y ↦ index y < index x
  low_le : ∀ x ∈ stack, low x ≤ index x
  /-- The earliest place that a place is known to lead back to. -/
  back : ∀ x ∈ stack, ∃ y ∈ stack, Relation.ReflTransGen R x y ∧ index y = low x
  /-- A place that the walk is through with leads back. -/
  inner : ∀ x ∈ stack, x ∉ path → low x < index x
  /-- A place on the path leads to all that was entered after it. -/
  above : ∀ p ∈ path, ∀ x ∈ stack, index p ≤ index x → Relation.ReflTransGen R p x

/-- A walk that is through with a place takes the component of the place off its stack: it has come to no
other one of them before, and none of them is on the path any more. -/
structure PopsComponent (R : α → α → Prop) (index : α → ℕ) (stack path : List α) (m : α)
    (above below : List α) : Prop where
  split : stack = above ++ m :: below
  nodup : stack.Nodup
  component : ∀ x, x ∈ above ++ [m] ↔ Mutual R m x
  first : ∀ x ∈ above, index m < index x
  finished : ∀ p ∈ path, p ∈ below

namespace Woven

theorem nil (R : α → α → Prop) (index low : α → ℕ) : Woven R index low [] [] :=
  ⟨.nil, nofun, .nil, nofun, nofun, nofun, nofun⟩

theorem nodup (h : Woven R index low stack path) : stack.Nodup :=
  h.sorted.imp fun hlt heq ↦ absurd (congrArg index heq) hlt.ne'

/-- Nothing changes for the places on the stack. -/
theorem congr (h : Woven R index low stack path) (hindex : ∀ x ∈ stack, index' x = index x)
    (hlow : ∀ x ∈ stack, low' x = low x)
    (hR : ∀ x ∈ stack, ∀ y, Relation.ReflTransGen R x y → Relation.ReflTransGen R' x y) :
    Woven R' index' low' stack path where
  sorted := h.sorted.imp_of_mem fun hx hy hlt ↦ by rwa [hindex _ hx, hindex _ hy]
  mem := h.mem
  path_sorted := h.path_sorted.imp_of_mem fun hx hy hlt ↦ by
    rwa [hindex _ (h.mem _ hx), hindex _ (h.mem _ hy)]
  low_le x hx := by
    rw [hlow x hx, hindex x hx]
    exact h.low_le x hx
  back x hx := by
    obtain ⟨y, hy, hxy, heq⟩ := h.back x hx
    exact ⟨y, hy, hR x hx y hxy, by rw [hindex y hy, hlow x hx, heq]⟩
  inner x hx hout := by
    rw [hlow x hx, hindex x hx]
    exact h.inner x hx hout
  above p hp x hx hle := by
    rw [hindex p (h.mem p hp), hindex x hx] at hle
    exact hR p (h.mem p hp) x (h.above p hp x hx hle)

/-- A place is entered, from the one that the walk is at. -/
theorem push (h : Woven R index low stack path) (hnew : ∀ x ∈ stack, index x < index d)
    (hlow : low d = index d) (hfrom : ∀ m rest, path = m :: rest → Relation.ReflTransGen R m d) :
    Woven R index low (d :: stack) (d :: path) where
  sorted := List.pairwise_cons.2 ⟨hnew, h.sorted⟩
  mem := List.forall_mem_cons.2 ⟨List.mem_cons_self, fun p hp ↦ List.mem_cons_of_mem d (h.mem p hp)⟩
  path_sorted := List.pairwise_cons.2 ⟨fun p hp ↦ hnew p (h.mem p hp), h.path_sorted⟩
  low_le := List.forall_mem_cons.2 ⟨hlow.le, h.low_le⟩
  back := by
    refine List.forall_mem_cons.2 ⟨⟨d, List.mem_cons_self, .refl, hlow.symm⟩, fun x hx ↦ ?_⟩
    obtain ⟨y, hy, hxy⟩ := h.back x hx
    exact ⟨y, List.mem_cons_of_mem d hy, hxy⟩
  inner x hx hout := by
    obtain ⟨hne, hout⟩ := not_or.1 (mt List.mem_cons.2 hout)
    exact h.inner x ((List.mem_cons.1 hx).resolve_left hne) hout
  above p hp x hx hle := by
    by_cases hpd : p = d
    · subst hpd
      rcases List.mem_cons.1 hx with rfl | hx
      · exact .refl
      · exact absurd hle (not_le.2 (hnew x hx))
    have hpath := (List.mem_cons.1 hp).resolve_left hpd
    by_cases hxd : x = d
    · subst hxd
      cases path with
      | nil => exact absurd hpath List.not_mem_nil
      | cons m rest =>
        have hm := h.mem m List.mem_cons_self
        -- the place that the walk is at is the latest one on the path
        refine (h.above p hpath m hm ?_).trans (hfrom m rest rfl)
        rcases List.mem_cons.1 hpath with rfl | hrest
        · exact le_rfl
        · exact ((List.pairwise_cons.1 h.path_sorted).1 p hrest).le
    · exact h.above p hpath x ((List.mem_cons.1 hx).resolve_left hxd) hle

/-- The walk comes to a place on the stack. -/
theorem meet (h : Woven R index low stack (m :: path)) (hd : d ∈ stack) (hm : Relation.ReflTransGen R m d)
    (hself : low' m = min (low m) (low d)) (hother : ∀ x ∈ stack, x ≠ m → low' x = low x) :
    Woven R index low' stack (m :: path) where
  sorted := h.sorted
  mem := h.mem
  path_sorted := h.path_sorted
  low_le x hx := by
    by_cases hxm : x = m
    · subst hxm
      exact hself.trans_le ((min_le_left _ _).trans (h.low_le x hx))
    · rw [hother x hx hxm]
      exact h.low_le x hx
  back x hx := by
    by_cases hxm : x = m
    · subst hxm
      rcases min_choice (low x) (low d) with hmin | hmin
      · rw [hself, hmin]
        exact h.back x hx
      · obtain ⟨y, hy, hdy, heq⟩ := h.back d hd
        exact ⟨y, hy, hm.trans hdy, by rw [hself, hmin, heq]⟩
    · rw [hother x hx hxm]
      exact h.back x hx
  inner x hx hout := by
    rw [hother x hx fun heq ↦ hout (heq ▸ List.mem_cons_self)]
    exact h.inner x hx hout
  above := h.above

/-- The walk is through with a place that leads back to an earlier one. -/
theorem drop (h : Woven R index low stack (m :: path)) (hback : low m ≠ index m) :
    Woven R index low stack path where
  sorted := h.sorted
  mem p hp := h.mem p (List.mem_cons_of_mem m hp)
  path_sorted := (List.pairwise_cons.1 h.path_sorted).2
  low_le := h.low_le
  back := h.back
  inner x hx hout := by
    by_cases hxm : x = m
    · subst hxm
      exact lt_of_le_of_ne (h.low_le x hx) hback
    · exact h.inner x hx fun hmem ↦ hout ((List.mem_cons.1 hmem).resolve_left hxm)
  above p hp := h.above p (List.mem_cons_of_mem m hp)

/-- Every place on the stack leads to the one that the walk is at: from a place that the walk is through
with, an earlier one is led to. -/
theorem leads_to_head (h : Woven R index low stack (m :: path)) (hx : x ∈ stack) :
    Relation.ReflTransGen R x m := by
  induction hn : index x using Nat.strong_induction_on generalizing x with
  | _ n ih =>
    subst hn
    have hm := h.mem m List.mem_cons_self
    by_cases hpath : x ∈ m :: path
    · refine h.above x hpath m hm ?_
      rcases List.mem_cons.1 hpath with rfl | hpath
      · exact le_rfl
      · exact ((List.pairwise_cons.1 h.path_sorted).1 x hpath).le
    · obtain ⟨y, hy, hxy, heq⟩ := h.back x hx
      exact hxy.trans (ih (index y) (heq ▸ h.inner x hx hpath) hy rfl)

/-! ## Components -/

section Component

variable {above : List α}

/-- What lies on the stack from the place on was entered after it. -/
theorem mem_top_iff (h : Woven R index low (above ++ m :: below) path) :
    x ∈ above ++ [m] ↔ x ∈ above ++ m :: below ∧ index m ≤ index x := by
  obtain ⟨-, hsorted, habove⟩ := List.pairwise_append.1 h.sorted
  have hbelow := (List.pairwise_cons.1 hsorted).1
  simp only [List.mem_append, List.mem_cons, List.not_mem_nil, or_false]
  refine ⟨?_, ?_⟩
  · rintro (hx | rfl)
    · exact ⟨.inl hx, (habove x hx m List.mem_cons_self).le⟩
    · exact ⟨.inr (.inl rfl), le_rfl⟩
  · rintro ⟨hx | rfl | hx, hle⟩
    · exact .inl hx
    · exact .inr rfl
    · exact absurd hle (not_le.2 (hbelow x hx))

/-- The places from the one that the walk is through with to the top are taken off. -/
theorem pop (h : Woven R index low (above ++ m :: below) (m :: path)) :
    Woven R index low below path := by
  have hsub : ∀ x ∈ below, x ∈ above ++ m :: below := fun x hx ↦
    List.mem_append_right above (List.mem_cons_of_mem m hx)
  have hbelow := (List.pairwise_cons.1 (List.pairwise_append.1 h.sorted).2.1).1
  have hearlier : ∀ x ∈ above ++ m :: below, index x < index m → x ∈ below := fun x hx hlt ↦ by
    have hout := mt h.mem_top_iff.1 fun h ↦ absurd h.2 (not_le.2 hlt)
    rw [List.append_cons] at hx
    exact (List.mem_append.1 hx).resolve_left hout
  obtain ⟨hpath, hpath_sorted⟩ := List.pairwise_cons.1 h.path_sorted
  have hmem : ∀ p ∈ path, p ∈ below := fun p hp ↦
    hearlier p (h.mem p (List.mem_cons_of_mem m hp)) (hpath p hp)
  refine ⟨(List.pairwise_cons.1 (List.pairwise_append.1 h.sorted).2.1).2, hmem, hpath_sorted,
    fun x hx ↦ h.low_le x (hsub x hx), fun x hx ↦ ?_, fun x hx hout ↦ ?_, fun p hp x hx ↦ ?_⟩
  · obtain ⟨y, hy, hxy, heq⟩ := h.back x (hsub x hx)
    have hlt : index y < index m := (heq.trans_le (h.low_le x (hsub x hx))).trans_lt (hbelow x hx)
    exact ⟨y, hearlier y hy hlt, hxy, heq⟩
  · refine h.inner x (hsub x hx) fun hmem ↦ hout ((List.mem_cons.1 hmem).resolve_left ?_)
    rintro rfl
    exact absurd (hbelow x hx) (lt_irrefl _)
  · exact h.above p (List.mem_cons_of_mem m hp) x (hsub x hx)

variable {settled : α → Prop}

/-- What is settled leads to nothing else. -/
theorem settled_of_leads (hclosed : ∀ x d, settled x → R x d → settled d) (hx : settled x)
    (hxy : Relation.ReflTransGen R x y) : settled y := by
  induction hxy with
  | refl => exact hx
  | tail _ hd ih => exact hclosed _ _ ih hd

/-- From the top of the stack a graph leads only to what is there, or settled. -/
theorem fenced (hfence : ∀ x ∈ stack, index m ≤ index x → ∀ d, R x d → settled d ∨ d ∈ stack ∧ index m ≤ index d)
    (hclosed : ∀ x d, settled x → R x d → settled d) (hx : x ∈ stack) (hle : index m ≤ index x)
    (hxy : Relation.ReflTransGen R x y) : settled y ∨ y ∈ stack ∧ index m ≤ index y := by
  induction hxy with
  | refl => exact .inr ⟨hx, hle⟩
  | tail _ hd ih =>
    rcases ih with hsettled | ⟨hmem, hle⟩
    · exact .inl (hclosed _ _ hsettled hd)
    · exact hfence _ hmem hle _ hd

/-- A place that leads back to nothing earlier is the root of its component, which is what lies from there
to the top of the stack. -/
theorem mem_component_iff (h : Woven R index low (above ++ m :: below) (m :: path))
    (hfence : ∀ x ∈ above ++ [m], ∀ d, R x d → settled d ∨ d ∈ above ++ m :: below ∧ index m ≤ index d)
    (hclosed : ∀ x d, settled x → R x d → settled d)
    (hunsettled : ∀ x ∈ above ++ m :: below, ¬settled x) : x ∈ above ++ [m] ↔ Mutual R m x := by
  have hm := h.mem m List.mem_cons_self
  replace hfence : ∀ x ∈ above ++ m :: below, index m ≤ index x → ∀ d, R x d →
      settled d ∨ d ∈ above ++ m :: below ∧ index m ≤ index d := fun x hx hle ↦
    hfence x (h.mem_top_iff.2 ⟨hx, hle⟩)
  rw [h.mem_top_iff]
  refine ⟨fun ⟨hx, hle⟩ ↦ ⟨h.above m List.mem_cons_self x hx hle, ?_⟩, fun ⟨hmx, hxm⟩ ↦ ?_⟩
  · -- each place leads to an earlier one, as long as it is not the root itself
    induction hn : index x using Nat.strong_induction_on generalizing x with
    | _ n ih =>
      subst hn
      by_cases hxm : x = m
      · exact hxm ▸ .refl
      · have hout : x ∉ m :: path := fun hmem ↦ by
          have hpath := (List.mem_cons.1 hmem).resolve_left hxm
          exact absurd ((List.pairwise_cons.1 h.path_sorted).1 x hpath) (not_lt.2 hle)
        obtain ⟨y, hy, hxy, heq⟩ := h.back x hx
        have hley := ((fenced hfence hclosed hx hle hxy).resolve_left (hunsettled y hy)).2
        exact hxy.trans (ih (index y) (heq ▸ h.inner x hx hout) ⟨hy, hley⟩ hy hley rfl)
  · refine (fenced hfence hclosed hm le_rfl hmx).resolve_left fun hsettled ↦ hunsettled m hm ?_
    exact settled_of_leads hclosed hsettled hxm

/-- The walk takes the component off its stack, and is through with all of it. -/
theorem popsComponent (h : Woven R index low (above ++ m :: below) (m :: path))
    (hfence : ∀ x ∈ above ++ [m], ∀ d, R x d → settled d ∨ d ∈ above ++ m :: below ∧ index m ≤ index d)
    (hclosed : ∀ x d, settled x → R x d → settled d)
    (hunsettled : ∀ x ∈ above ++ m :: below, ¬settled x) :
    PopsComponent R index (above ++ m :: below) path m above below where
  split := rfl
  nodup := h.nodup
  component _ := h.mem_component_iff hfence hclosed hunsettled
  first x hx := (List.pairwise_append.1 h.sorted).2.2 x hx m List.mem_cons_self
  finished := h.pop.mem

end Component

end Woven

end EcmaModules
