import EcmaModules.Proofs.Run

/-!
# Playing runs

Runs in which the host is not asked can be computed: call by call, and step by step within a call. A
check of single steps makes sure that the run is one of those that are meant.
-/

namespace EcmaModules

/-- The machine does not start an evaluation from inside of a body. -/
def Machine.startsOutside (M : Machine) : Bool :=
  match M.control with
  | .run (.evaluate _) => M.frames.isEmpty
  | _ => true

/-- Plays a call to its end, in no more than the given number of steps that all pass the check. -/
def Machine.play (check : Machine → Machine → Bool) (a : Act) :
    Nat → Machine → List Event → Option (Store × List Event)
  | 0, _, _ => none
  | n + 1, M, H =>
    match M.result? with
    | some r => some (M.store, .done a r :: H)
    | none =>
      if M.startsOutside && check M M.step then play check a n M.step (M.events ++ H) else none

/-- Plays the given number of steps of a call, which all have to pass the check. -/
def Machine.playSteps (check : Machine → Machine → Bool) :
    Nat → Machine → List Event → Option (Machine × List Event)
  | 0, M, H => some (M, H)
  | n + 1, M, H =>
    if M.startsOutside && check M M.step then M.step.playSteps check n (M.events ++ H) else none

/-- Plays calls one after the other. -/
def Store.play (check : Machine → Machine → Bool) (n : Nat) :
    List Act → Store → List Event → Option (Store × List Event)
  | [], s, H => some (s, H)
  | a :: as, s, H =>
    match a.begin s with
    | none => none
    | some (.idle s) => play check n as s H
    | some (.busy b M) =>
      match M.play check b n H with
      | none => none
      | some (s, H) => play check n as s H

variable {P : Machine → Machine → Prop} {check : Machine → Machine → Bool} {s₀ : Store}

theorem Machine.frames_of_startsOutside {M : Machine} (h : M.startsOutside = true) :
    ∀ m, M.control = .run (.evaluate m) → M.frames = [] := fun m hm ↦ by
  simpa [startsOutside, hm] using h

/-- What is played of a call is part of a run. -/
theorem Onward.playSteps (hcheck : ∀ M M', check M M' = true → P M M') {a : Act} {n : Nat}
    {M M' : Machine} {H H' : List Event} (hplay : M.playSteps check n H = some (M', H')) :
    Onward P (.busy a M, H) (.busy a M', H') := by
  induction n generalizing M H with
  | zero =>
    obtain ⟨rfl, rfl⟩ := Prod.mk.inj (Option.some.inj hplay)
    exact .refl
  | succ n ih =>
    rw [Machine.playSteps] at hplay
    split at hplay
    · next hc =>
      rw [Bool.and_eq_true] at hc
      exact .head (.step (Machine.frames_of_startsOutside hc.1) (hcheck _ _ hc.2)) (ih hplay)
    · exact nomatch hplay

/-- A call that is played is part of a run. -/
theorem Onward.playCall (hcheck : ∀ M M', check M M' = true → P M M') {a : Act} {n : Nat}
    {M : Machine} {H H' : List Event} {s : Store} (hplay : M.play check a n H = some (s, H')) :
    Onward P (.busy a M, H) (.idle s, H') := by
  induction n generalizing M H with
  | zero => exact nomatch hplay
  | succ n ih =>
    rw [Machine.play] at hplay
    split at hplay
    · next r hr =>
      obtain ⟨rfl, rfl⟩ := Prod.mk.inj (Option.some.inj hplay)
      exact .single (.finish hr)
    · split at hplay
      · next hc =>
        rw [Bool.and_eq_true] at hc
        exact .head (.step (Machine.frames_of_startsOutside hc.1) (hcheck _ _ hc.2)) (ih hplay)
      · exact nomatch hplay

/-- Calls that are played are part of a run. -/
theorem Onward.play (hcheck : ∀ M M', check M M' = true → P M M') {n : Nat} {as : List Act}
    {H H' : List Event} {s s' : Store} (hplay : s.play check n as H = some (s', H')) :
    Onward P (.idle s, H) (.idle s', H') := by
  induction as generalizing s H with
  | nil =>
    obtain ⟨rfl, rfl⟩ := Prod.mk.inj (Option.some.inj hplay)
    exact .refl
  | cons a as ih =>
    rw [Store.play] at hplay
    split at hplay
    · exact nomatch hplay
    · next hbegin => exact .head (.call a hbegin) (ih hplay)
    · next b M hbegin =>
      split at hplay
      · exact nomatch hplay
      · next s'' H'' hcall =>
        exact .head (.call a hbegin) ((Onward.playCall hcheck hcall).trans (ih hplay))

/-- What is played is a run. -/
theorem Run.play (hcheck : ∀ M M', check M M' = true → P M M') {n : Nat} {as : List Act}
    {H H' : List Event} {s s' : Store} (h : Run P s₀ (.idle s) H)
    (hplay : s.play check n as H = some (s', H')) : Run P s₀ (.idle s') H' :=
  Run.onward (x := (.idle s, H)) (y := (.idle s', H')) h (Onward.play hcheck hplay)

/-- The run that calls lead to which can be played. -/
theorem Run.ofPlay (check : Machine → Machine → Bool) (s₀ : Store) (n : Nat) (as : List Act)
    (hcheck : ∀ M M', check M M' = true → P M M') (h : (s₀.play check n as []).isSome = true) :
    Run P s₀ (.idle ((s₀.play check n as []).get h).1) ((s₀.play check n as []).get h).2 :=
  Run.play hcheck .start (Option.some_get h).symm

/-- What a number of steps of a call leads to which can be played. -/
theorem Onward.ofPlaySteps (check : Machine → Machine → Bool) (a : Act) (n : Nat)
    (x : Machine × List Event) (hcheck : ∀ M M', check M M' = true → P M M')
    (h : (x.1.playSteps check n x.2).isSome = true) :
    Onward P (.busy a x.1, x.2)
      (.busy a ((x.1.playSteps check n x.2).get h).1, ((x.1.playSteps check n x.2).get h).2) :=
  Onward.playSteps hcheck (Option.some_get h).symm

/-- What calls lead to which can be played from a state between calls. -/
theorem Onward.ofPlay (check : Machine → Machine → Bool) (x : Store × List Event) (n : Nat)
    (as : List Act) (hcheck : ∀ M M', check M M' = true → P M M')
    (h : (x.1.play check n as x.2).isSome = true) :
    Onward P (.idle x.1, x.2)
      (.idle ((x.1.play check n as x.2).get h).1, ((x.1.play check n as x.2).get h).2) :=
  Onward.play hcheck (Option.some_get h).symm

/-! ## Graphs -/

/-- A module that has been linked, with its requests and the modules that were loaded for them. -/
def Module.linked (awaits : Bool) (requests : List (String × Phase × Nat)) : Module where
  content := .sourceText
    { entries :=
        { requests := requests.map fun (name, phase, _) ↦ { specifier := name, phase := phase }
          awaits := awaits }
      status := .linked
      loaded := requests.map fun (name, phase, i) ↦
        ⟨{ specifier := name, phase := phase }, ⟨i⟩⟩ }

/-- A module that has been linked and takes steps when it is executed. -/
def Module.scripted (awaits : Bool) (requests : List (String × Phase × Nat)) (body : List Step) :
    Module where
  content := .sourceText
    { entries :=
        { requests := requests.map fun (name, phase, _) ↦ { specifier := name, phase := phase }
          awaits := awaits }
      body := body
      status := .linked
      loaded := requests.map fun (name, phase, i) ↦
        ⟨{ specifier := name, phase := phase }, ⟨i⟩⟩ }

/-- Nothing in the store has been evaluated yet. -/
theorem Store.fresh_of_scripted {l : List (Bool × List (String × Phase × Nat) × List Step)}
    {s : Store} (hs : s.modules = (l.map fun m ↦ Module.scripted m.1 m.2.1 m.2.2).toArray)
    (hp : s.promises = #[]) (hj : s.jobs = []) : s.Fresh := by
  have hmodule : ∀ {m : ModuleId} {r : Module}, s.module? m = some r →
      ∃ awaits requests body, r = .scripted awaits requests body := by
    intro m r hr
    simp only [Store.module?, hs, List.getElem?_toArray, List.getElem?_map,
      Option.map_eq_some_iff] at hr
    obtain ⟨x, -, rfl⟩ := hr
    exact ⟨_, _, _, rfl⟩
  refine ⟨fun m r hr ↦ ?_, fun m r hr ↦ ?_, hp, hj⟩
  · unfold Store.source? at hr
    split at hr
    · next hm =>
      obtain ⟨awaits, requests, body, heq⟩ := hmodule hm
      cases heq
      cases hr
      exact ⟨.inr (.inr rfl), rfl, rfl, rfl, rfl, rfl, rfl⟩
    · exact nomatch hr
  · unfold Store.synthetic? at hr
    split at hr
    · next hm =>
      obtain ⟨awaits, requests, body, heq⟩ := hmodule hm
      cases heq
    · exact nomatch hr

/-- Nothing in the store has been evaluated yet. -/
theorem Store.fresh_of_linked {l : List (Bool × List (String × Phase × Nat))} {s : Store}
    (hs : s.modules = (l.map fun m ↦ Module.linked m.1 m.2).toArray) (hp : s.promises = #[])
    (hj : s.jobs = []) : s.Fresh :=
  Store.fresh_of_scripted (l := l.map fun m ↦ (m.1, m.2, []))
    (hs.trans (by rw [List.map_map]; rfl)) hp hj

end EcmaModules
