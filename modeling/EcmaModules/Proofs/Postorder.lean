import Mathlib.Data.Finset.Card

/-!
# Going through a graph depth first

The plain recursive traversal: a place is entered if that has not happened yet, then the places that come
after it are gone through, and then the traversal is through with the place. The order in which it is through
with places is the post-order.

Walks keep the path to the place that they are at as a list instead. What a walk is going to be through with
can be read off its path (`remaining`), and that is the same after each of its steps, but for a place at the
beginning that the walk is through with in the step.

## What need not be entered

A set of places that leads to nothing outside may be left out: the rest of the order is the same
(`postorder_sdiff`).
-/

namespace EcmaModules

variable {α : Type} [DecidableEq α] {succ : α → List α}

/-! ## The traversal -/

/-- Goes through places one after the other, depth first. Gives those that were fresh in the order in which
the traversal is through with them, and what is fresh still. -/
def traverse (succ : α → List α) (fresh : Finset α) :
    List α → List α × { rest : Finset α // rest ⊆ fresh }
  | [] => ([], ⟨fresh, fun _ hx ↦ hx⟩)
  | d :: ds =>
    if _hd : d ∈ fresh then
      let inner := traverse succ (fresh.erase d) (succ d)
      let outer := traverse succ inner.2.1 ds
      (inner.1 ++ d :: outer.1, ⟨outer.2.1, fun _ hx ↦ Finset.mem_of_mem_erase (inner.2.2 (outer.2.2 hx))⟩)
    else traverse succ fresh ds
termination_by ds => (fresh.card, ds.length)
decreasing_by
  · exact .left _ _ (Finset.card_erase_lt_of_mem ‹_›)
  · exact .left _ _ ((Finset.card_le_card inner.2.2).trans_lt (Finset.card_erase_lt_of_mem ‹_›))
  · exact .right _ (Nat.lt_succ_self _)

/-- The fresh places in the order in which a traversal is through with them. -/
def postorder (succ : α → List α) (fresh : Finset α) (ds : List α) : List α :=
  (traverse succ fresh ds).1

/-- What a traversal leaves. -/
def untouched (succ : α → List α) (fresh : Finset α) (ds : List α) : Finset α :=
  (traverse succ fresh ds).2.1

variable {fresh P : Finset α} {d x : α} {ds : List α}

@[simp] theorem postorder_nil : postorder succ fresh [] = [] := by
  rw [postorder, traverse]

@[simp] theorem untouched_nil : untouched succ fresh [] = fresh := by
  rw [untouched, traverse]

theorem postorder_cons_of_mem (hd : d ∈ fresh) :
    postorder succ fresh (d :: ds) = postorder succ (fresh.erase d) (succ d) ++
      d :: postorder succ (untouched succ (fresh.erase d) (succ d)) ds := by
  rw [postorder, traverse, dif_pos hd]
  rfl

theorem untouched_cons_of_mem (hd : d ∈ fresh) :
    untouched succ fresh (d :: ds) = untouched succ (untouched succ (fresh.erase d) (succ d)) ds := by
  rw [untouched, traverse, dif_pos hd]
  rfl

theorem postorder_cons_of_notMem (hd : d ∉ fresh) :
    postorder succ fresh (d :: ds) = postorder succ fresh ds := by
  rw [postorder, traverse, dif_neg hd, postorder]

theorem untouched_cons_of_notMem (hd : d ∉ fresh) :
    untouched succ fresh (d :: ds) = untouched succ fresh ds := by
  rw [untouched, traverse, dif_neg hd, untouched]

theorem untouched_subset (succ : α → List α) (fresh : Finset α) (ds : List α) :
    untouched succ fresh ds ⊆ fresh := (traverse succ fresh ds).2.2

/-- An induction along a traversal. -/
theorem traverse_induction (succ : α → List α) {motive : Finset α → List α → Prop} (nil : ∀ fresh, motive fresh [])
    (enter : ∀ fresh d ds, d ∈ fresh → motive (fresh.erase d) (succ d) →
      motive (untouched succ (fresh.erase d) (succ d)) ds → motive fresh (d :: ds))
    (skip : ∀ fresh d ds, d ∉ fresh → motive fresh ds → motive fresh (d :: ds)) (fresh : Finset α)
    (ds : List α) : motive fresh ds :=
  traverse.induct succ motive nil (fun fresh d ds hd hinner houter _ ↦ enter fresh d ds hd hinner houter)
    skip fresh ds

/-- What was fresh is entered, or left. -/
theorem mem_postorder_iff : x ∈ postorder succ fresh ds ↔ x ∈ fresh ∧ x ∉ untouched succ fresh ds := by
  induction fresh, ds using traverse_induction succ with
  | nil fresh => simp
  | skip fresh d ds hd ih => rw [postorder_cons_of_notMem hd, untouched_cons_of_notMem hd, ih]
  | enter fresh d ds hd hinner houter =>
    rw [postorder_cons_of_mem hd, untouched_cons_of_mem hd, List.mem_append, List.mem_cons, hinner, houter]
    by_cases hx : x = d
    · subst hx
      have hnot : x ∉ untouched succ (untouched succ (fresh.erase x) (succ x)) ds := fun hmem ↦
        Finset.notMem_erase x fresh (untouched_subset _ _ _ (untouched_subset _ _ _ hmem))
      simp [hd, hnot]
    · have hsub := @untouched_subset _ _ succ (untouched succ (fresh.erase d) (succ d)) ds x
      have hsub' := @untouched_subset _ _ succ (fresh.erase d) (succ d) x
      rw [Finset.mem_erase] at hsub' ⊢
      tauto

theorem nodup_postorder : (postorder succ fresh ds).Nodup := by
  induction fresh, ds using traverse_induction succ with
  | nil fresh => simp
  | skip fresh d ds hd ih => rwa [postorder_cons_of_notMem hd]
  | enter fresh d ds hd hinner houter =>
    rw [postorder_cons_of_mem hd]
    refine List.nodup_append.2 ⟨hinner, List.nodup_cons.2 ⟨fun hmem ↦ ?_, houter⟩, ?_⟩
    · exact Finset.notMem_erase d fresh (untouched_subset _ _ _ (mem_postorder_iff.1 hmem).1)
    · rintro x hx y hy rfl
      obtain ⟨hfresh, hnot⟩ := mem_postorder_iff.1 hx
      rcases List.mem_cons.1 hy with rfl | hy
      · exact Finset.notMem_erase x fresh hfresh
      · exact hnot (mem_postorder_iff.1 hy).1

/-- From inside of a set that leads to nothing fresh outside, a traversal does not come out. -/
theorem postorder_subset_of_closed (hP : ∀ x ∈ P, ∀ y ∈ succ x, y ∈ fresh → y ∈ P)
    (hds : ∀ d ∈ ds, d ∈ fresh → d ∈ P) : ∀ x ∈ postorder succ fresh ds, x ∈ P := by
  induction fresh, ds using traverse_induction succ with
  | nil fresh => simp
  | skip fresh d ds hd ih =>
    rw [postorder_cons_of_notMem hd]
    exact ih hP fun x hx ↦ hds x (List.mem_cons_of_mem d hx)
  | enter fresh d ds hd hinner houter =>
    have hdP := hds d List.mem_cons_self hd
    rw [postorder_cons_of_mem hd]
    have herase : ∀ x ∈ P, ∀ y ∈ succ x, y ∈ fresh.erase d → y ∈ P := fun x hx y hy hyd ↦
      hP x hx y hy (Finset.mem_of_mem_erase hyd)
    have hrest := untouched_subset succ (fresh.erase d) (succ d)
    intro x hx
    rcases List.mem_append.1 hx with hx | hx
    · exact hinner herase (herase d hdP) x hx
    · rcases List.mem_cons.1 hx with rfl | hx
      · exact hdP
      · refine houter (fun x hx y hy hyd ↦ herase x hx y hy (hrest hyd)) (fun y hy hyd ↦ ?_) x hx
        exact hds y (List.mem_cons_of_mem d hy) (Finset.mem_of_mem_erase (hrest hyd))

/-- What leads to nothing fresh outside may be left out. -/
theorem traverse_sdiff (hP : ∀ x ∈ P, ∀ y ∈ succ x, y ∈ fresh → y ∈ P) :
    postorder succ (fresh \ P) ds = (postorder succ fresh ds).filter (· ∉ P) ∧
      untouched succ (fresh \ P) ds = untouched succ fresh ds \ P := by
  induction fresh, ds using traverse_induction succ with
  | nil fresh => simp
  | skip fresh d ds hd ih =>
    have hd' : d ∉ fresh \ P := fun hmem ↦ hd (Finset.mem_sdiff.1 hmem).1
    rw [postorder_cons_of_notMem hd, postorder_cons_of_notMem hd', untouched_cons_of_notMem hd,
      untouched_cons_of_notMem hd']
    exact ih hP
  | enter fresh d ds hd hinner houter =>
    have herase : ∀ x ∈ P, ∀ y ∈ succ x, y ∈ fresh.erase d → y ∈ P := fun x hx y hy hyd ↦
      hP x hx y hy (Finset.mem_of_mem_erase hyd)
    have hrest := untouched_subset succ (fresh.erase d) (succ d)
    have houter := houter fun x hx y hy hyd ↦ herase x hx y hy (hrest hyd)
    rw [postorder_cons_of_mem hd, untouched_cons_of_mem hd, List.filter_append, List.filter_cons]
    by_cases hdP : d ∈ P
    · -- all that is entered from here on lies in the set
      have hinside : ∀ x ∈ postorder succ (fresh.erase d) (succ d), x ∈ P :=
        postorder_subset_of_closed herase (herase d hdP)
      have hnone : (postorder succ (fresh.erase d) (succ d)).filter (· ∉ P) = [] :=
        List.filter_eq_nil_iff.2 fun x hx ↦ by simpa using hinside x hx
      have hsame : untouched succ (fresh.erase d) (succ d) \ P = fresh \ P := by
        ext x
        rw [Finset.mem_sdiff, Finset.mem_sdiff]
        refine and_congr_left fun hx ↦ ⟨fun h ↦ Finset.mem_of_mem_erase (hrest h), fun h ↦ ?_⟩
        by_contra hout
        have hne : x ≠ d := fun heq ↦ hx (heq ▸ hdP)
        exact hx (hinside x (mem_postorder_iff.2 ⟨Finset.mem_erase.2 ⟨hne, h⟩, hout⟩))
      have hd' : d ∉ fresh \ P := fun hmem ↦ (Finset.mem_sdiff.1 hmem).2 hdP
      rw [postorder_cons_of_notMem hd', untouched_cons_of_notMem hd', hnone, ← hsame, List.nil_append,
        if_neg (by simpa using hdP)]
      exact houter
    · have hd' : d ∈ fresh \ P := Finset.mem_sdiff.2 ⟨hd, hdP⟩
      obtain ⟨hin, hleft⟩ := hinner herase
      have herased : (fresh \ P).erase d = fresh.erase d \ P := Finset.erase_sdiff_comm _ _ _ |>.symm
      rw [postorder_cons_of_mem hd', untouched_cons_of_mem hd', herased, hin, hleft, houter.1, houter.2,
        if_pos (by simpa using hdP)]
      exact ⟨rfl, rfl⟩

/-- Only what a traversal comes to matters. -/
theorem traverse_congr {succ' : α → List α} {fresh' : Finset α} {Q : α → Prop}
    (hQ : ∀ x, Q x → succ' x = succ x ∧ ∀ y ∈ succ x, Q y) (hfresh : ∀ x, Q x → (x ∈ fresh' ↔ x ∈ fresh))
    (hds : ∀ d ∈ ds, Q d) : postorder succ' fresh' ds = postorder succ fresh ds ∧
      ∀ x, Q x → (x ∈ untouched succ' fresh' ds ↔ x ∈ untouched succ fresh ds) := by
  induction fresh, ds using traverse_induction succ generalizing fresh' with
  | nil fresh => simpa using hfresh
  | skip fresh d ds hd ih =>
    obtain ⟨hQd, hds⟩ := List.forall_mem_cons.1 hds
    have hd' : d ∉ fresh' := mt (hfresh d hQd).1 hd
    rw [postorder_cons_of_notMem hd, postorder_cons_of_notMem hd', untouched_cons_of_notMem hd,
      untouched_cons_of_notMem hd']
    exact ih hfresh hds
  | enter fresh d ds hd hinner houter =>
    obtain ⟨hQd, hds⟩ := List.forall_mem_cons.1 hds
    have hd' : d ∈ fresh' := (hfresh d hQd).2 hd
    have herase : ∀ x, Q x → (x ∈ fresh'.erase d ↔ x ∈ fresh.erase d) := fun x hx ↦ by
      rw [Finset.mem_erase, Finset.mem_erase, hfresh x hx]
    obtain ⟨hin, hleft⟩ := hinner herase (hQ d hQd).2
    obtain ⟨hout, hrest⟩ := houter hleft hds
    rw [postorder_cons_of_mem hd, postorder_cons_of_mem hd', untouched_cons_of_mem hd,
      untouched_cons_of_mem hd', (hQ d hQd).1, hin, hout]
    exact ⟨rfl, hrest⟩

/-! ## Paths -/

/-- What a walk is going to be through with. Its path is the list of the places that it has entered and is
not through with, the latest first, with those that come after them and that the walk has not come to. -/
def remaining (succ : α → List α) (fresh : Finset α) : List (α × List α) → List α
  | [] => []
  | (m, ds) :: path => postorder succ fresh ds ++ m :: remaining succ (untouched succ fresh ds) path

variable {m : α} {path : List (α × List α)}

theorem remaining_enter (hd : d ∈ fresh) :
    remaining succ (fresh.erase d) ((d, succ d) :: (m, ds) :: path) =
      remaining succ fresh ((m, d :: ds) :: path) := by
  simp only [remaining, postorder_cons_of_mem hd, untouched_cons_of_mem hd, List.append_assoc,
    List.cons_append]

theorem remaining_skip (hd : d ∉ fresh) :
    remaining succ fresh ((m, ds) :: path) = remaining succ fresh ((m, d :: ds) :: path) := by
  simp only [remaining, postorder_cons_of_notMem hd, untouched_cons_of_notMem hd]

theorem remaining_through : remaining succ fresh ((m, []) :: path) = m :: remaining succ fresh path := by
  simp only [remaining, postorder_nil, untouched_nil, List.nil_append]

end EcmaModules
