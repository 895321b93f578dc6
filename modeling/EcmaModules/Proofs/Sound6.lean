import EcmaModules.Proofs.Sound5

namespace EcmaModules

theorem Lawful.mono {p p' : Spot} {r : SourceText} (L : Lawful p r)
    (hf : ∀ t, p'.framed t ↔ p.framed t) (hr : p'.running ↔ p.running)
    (hs : p'.stacked ↔ p.stacked) (hF : p'.free → p.free) (hX : p.lone → p'.lone)
    (hb : p'.begun ↔ p.begun) (he : p.ended → p'.ended) : Lawful p' r where
  stacked := hs.trans L.stacked
  framed t ht := by
    obtain ⟨h1, h2, h3⟩ := L.framed t ((hf t).1 ht)
    exact ⟨h1, h2, fun h ↦ h3 (hb.1 h)⟩
  running h := ⟨(L.running (hr.1 h)).1, hb.2 (L.running (hr.1 h)).2⟩
  passed hn hs := by
    refine (L.passed (fun h ↦ hn ?_) hs).imp id (And.imp_right he)
    exact h.imp hr.2 fun ⟨t, ht⟩ ↦ ⟨t, (hf t).2 ht⟩
  searched hn hs := by
    refine L.searched (fun h ↦ hn ?_) hs
    exact h.imp hr.2 fun ⟨t, ht⟩ ↦ ⟨t, (hf t).2 ht⟩
  awaits := L.awaits
  pending := L.pending
  waiting := L.waiting
  begun h := by
    rcases L.begun (hb.1 h) with h | ⟨h1, h2, h3, h4, h5⟩ | h | ⟨h1, h2, h3⟩
    · exact .inl h
    · exact .inr (.inl ⟨h1, h2, h3, h4, fun h ↦ h5 (hF h)⟩)
    · exact .inr (.inr (.inl h))
    · exact .inr (.inr (.inr ⟨h1, h2, hX h3⟩))
  evaluated h h' h'' := he (L.evaluated h h' h'')
  error := L.error
  free h := L.free (hF h)
  parents := L.parents

namespace Sound

variable {s : Store} {o o' : Outline} {T : List Tour} {F F' X X' G G' : List ModuleId}
  {H H' : List Event} {m : ModuleId} {r r' : SourceText}

/-- Events that do not say that a body was called. -/
theorem events (h : Sound o T F X G H) (hH : H ⊆ H') (hb : begun H' = begun H)
    (hb' : ∀ x c, .began x c ∈ H' ↔ .began x c ∈ H) : Sound o T F X G H' where
  stacked := h.stacked
  path := h.path
  rooted := h.rooted
  ground := h.ground
  start := h.start
  known := h.known
  back := h.back
  queue := h.queue
  lone x hx := by
    obtain ⟨r, hr, hw, c, hc⟩ := h.lone x hx
    exact ⟨r, hr, hw, c, hH hc⟩
  onceBegun := hb ▸ h.onceBegun
  began x c hc := h.began x c ((hb' x c).1 hc)
  lawful x r hr := by
    refine (h.lawful x r hr).mono (fun _ ↦ Iff.rfl) Iff.rfl Iff.rfl id id ?_ ?_
    · simp [spot, hb']
    · exact .imp fun c hc ↦ hH hc
  counted := h.counted

/-! ## Without a walk -/

/-- What a module shows while there is no walk. -/
theorem unwalked (h : Sound o [] F X G H) (hr : o m = some r) :
    r.status.isWalked = false ∧ Unwalked (spot [] F X H m) r :=
  (h.lawful m r hr).unwalked (by rintro ⟨τ, hτ, -⟩; exact nomatch hτ)

theorem lawful_nil (h : Unwalked (spot [] F X H m) r) (hw : r.status.isWalked = false) :
    Lawful (spot [] F X H m) r := by
  refine h.lawful ?_ ?_ hw
  · rintro (⟨τ, hτ, -⟩ | ⟨t, τ, hτ, -⟩) <;> exact nomatch hτ
  · rintro ⟨τ, hτ, -⟩
    exact nomatch hτ

/-- A move that concerns a single module, while there is no walk. -/
theorem local_nil (h : Sound o [] F X G H) (hm : o m = some r) (hm' : o' m = some r')
    (hne : ∀ x, x ≠ m → o' x = o x) (hentries : r'.entries = r.entries) (hF : F'.Nodup)
    (hX : ∀ x ∈ X', x ∈ X ∨ x = m ∧ r.entries.awaits = false ∧ ∃ c, .began m c ∈ H')
    (hH : H ⊆ H') (hnodup : (begun H').Nodup)
    (hbegan : ∀ x c, .began x c ∈ H' → .began x c ∈ H ∨ x = m ∧ c.isSome = r.entries.awaits)
    (hfree : ∀ x, x ≠ m → (x ∈ F' ↔ x ∈ F)) (hlone : ∀ x, x ≠ m → (x ∈ X' ↔ x ∈ X))
    (hended : ∀ x c, x ≠ m → (.ended x c (.ok ()) ∈ H' ↔ .ended x c (.ok ()) ∈ H))
    (hw : r'.status.isWalked = false) (hU : Unwalked (spot [] F' X' H' m) r')
    (hc : r'.status ≠ .evaluated → Counted o' (F' ++ X') G' m r'.waitsFor)
    (hc' : ∀ x p, x ≠ m → o x = some p → p.status ≠ .evaluated →
      Counted o (F ++ X) G x p.waitsFor → Counted o' (F' ++ X') G' x p.waitsFor) :
    Sound o' [] F' X' G' H' where
  stacked := List.nodup_nil
  path := by simp
  rooted := by simp
  ground := by simp
  start := by simp
  known := by simp
  back := by simp
  queue := hF
  lone x hx := by
    rcases hX x hx with hx | ⟨rfl, hw, hb⟩
    · obtain ⟨p, hp, hw, c, hev⟩ := h.lone x hx
      by_cases hxm : x = m
      · subst hxm
        obtain rfl : r = p := by simpa [hm] using hp
        exact ⟨r', hm', by rw [hentries, hw], c, hH hev⟩
      · exact ⟨p, by rwa [hne x hxm], hw, c, hH hev⟩
    · exact ⟨r', hm', by rw [hentries, hw], hb⟩
  onceBegun := hnodup
  began x c hev := by
    rcases hbegan x c hev with hev | ⟨rfl, hev⟩
    · obtain ⟨p, hp, hw⟩ := h.began x c hev
      by_cases hxm : x = m
      · subst hxm
        obtain rfl : r = p := by simpa [hm] using hp
        exact ⟨r', hm', by rw [hentries, hw]⟩
      · exact ⟨p, by rwa [hne x hxm], hw⟩
    · exact ⟨r', hm', by rw [hentries, hev]⟩
  lawful x p hp := by
    by_cases hxm : x = m
    · subst hxm
      obtain rfl : r' = p := by simpa [hm'] using hp
      exact lawful_nil hU hw
    · rw [hne x hxm] at hp
      have hspot : spot [] F' X' H' x = spot [] F X H x := by
        apply Spot.ext <;> simp only [spot, List.not_mem_nil, false_and, exists_false, iff_self,
          implies_true, hfree x hxm, hlone x hxm]
        · exact ⟨.imp fun c hc ↦ (hbegan x c hc).resolve_right fun h ↦ hxm h.1,
            .imp fun c hc ↦ hH hc⟩
        · exact exists_congr fun c ↦ hended x c hxm
      rw [hspot]
      exact h.lawful x p hp
  counted x p hp hps := by
    by_cases hxm : x = m
    · subst hxm
      obtain rfl : r' = p := by simpa [hm'] using hp
      exact hc hps
    · rw [hne x hxm] at hp
      exact hc' x p hxm hp hps (h.counted x p hp hps)

/-- Who owes after a move that concerns a single module. -/
theorem owes_of_ne {Z Z' : List ModuleId} (hne : ∀ x, x ≠ m → o' x = o x)
    (hZ : ∀ x, x ≠ m → x ∈ Z → x ∈ Z') {d x : ModuleId} (hd : d ≠ m)
    (ho : Owes o' Z' d x) : Owes o Z d x := by
  obtain ⟨q, hq, hw, hmem, hz⟩ := ho
  exact ⟨q, by rwa [hne d hd] at hq, hw, hmem, hz.imp id fun h h' ↦ h (hZ d hd h')⟩

theorem not_owes_self {Z : List ModuleId} (hm' : o' m = some r')
    (hw : r'.status.isWaiting = false) {x : ModuleId} : ¬Owes o' Z m x := by
  rintro ⟨q, hq, hw', -⟩
  obtain rfl : r' = q := by simpa [hm'] using hq
  simp [hw] at hw'

/-- A count goes on, when a single module has changed that owed nothing or is still owing. -/
theorem counted_of_ne {Z Z' : List ModuleId} {x : ModuleId} {n : Nat}
    (h : Counted o Z G x n) (hne : ∀ x, x ≠ m → o' x = o x)
    (hZ : ∀ x, x ≠ m → x ∈ Z → x ∈ Z') (hm : Owes o' Z' m x → Owes o Z m x)
    (hG : G'.count x ≤ G.count x) : Counted o' Z' G' x n := by
  refine h.mono (fun d hd ↦ ?_) hG (Nat.le_refl _)
  by_cases hdm : d = m
  · subst hdm
    exact hm hd
  · exact owes_of_ne hne hZ hdm hd

/-- One less owes, and the modules that it owed are due. -/
theorem counted_of_pay {Z Z' ps : List ModuleId} {x : ModuleId} {n : Nat}
    (h : Counted o Z G x n) (hne : ∀ x, x ≠ m → o' x = o x)
    (hZ : ∀ x, x ≠ m → x ∈ Z → x ∈ Z') (hm : ¬Owes o' Z' m x)
    (hps : ps.Nodup) (hm' : x ∈ ps → Owes o Z m x) : Counted o' Z' (ps ++ G) x n := by
  obtain ⟨l, hl, hle⟩ := h
  refine ⟨l.erase m, fun d hd ↦ ?_, ?_⟩
  · have hdm : d ≠ m := by
      rintro rfl
      exact hm hd
    exact (List.mem_erase_of_ne hdm).2 (hl d (owes_of_ne hne hZ hdm hd))
  · rw [List.count_append]
    by_cases hx : x ∈ ps
    · have hml : m ∈ l := hl m (hm' hx)
      have h1 := List.length_erase_of_mem hml
      have h2 := List.length_pos_of_mem hml
      have h3 : ps.count x ≤ 1 := List.nodup_iff_count.1 hps x
      omega
    · have h3 : ps.count x = 0 := List.count_eq_zero.2 hx
      have h1 : (l.erase m).length ≤ l.length := (List.erase_sublist).length_le
      omega

end Sound
end EcmaModules
