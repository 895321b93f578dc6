import EcmaModules.Proofs.Tours
import Mathlib.Logic.Relation
import Mathlib.Tactic.Common

/-!
# The moves of evaluation

What a step of the machine can do to an evaluation, as a relation between scenes. A scene is the
store with what the task and the frames say about evaluation. A step of the machine is a few moves
in a row, and an invariant of evaluation is what every move keeps.

## Between two steps

Some parts of a scene are empty whenever a step is over: the waits that a finished module is just
about to end, and the stances of walks other than going on and executing. They are there so that the
moves can be small.
-/

namespace EcmaModules

/-- What may happen in a run, or where. -/
structure Mode where
  /-- Modules are loaded in these stores. -/
  loads : Store → Prop
  /-- Evaluations start in these stores. -/
  starts : Store → Prop
  /-- Modules are searched. -/
  searches : Prop
  /-- Walks fail although modules that are not on the stack wait for some that are. -/
  opens : Prop
  /-- Modules that have been evaluated come to stand for themselves. -/
  detaches : Prop
  /-- Reading from a namespace starts walks. -/
  forces : Prop
  /-- Walks start while others are under way. -/
  nests : Prop
  /-- Modules fail. -/
  fails : Prop
  /-- Walks pass over requests for which nothing was loaded. -/
  skips : Prop

/-- The store, and where evaluation stands. -/
structure Scene where
  store : Store
  /-- The walks under way, the latest first. -/
  tours : List Tour
  /-- The modules that were set free and are to be executed. -/
  queue : List ModuleId
  /-- The module that was set free and is running, if it does not await. -/
  lone : List ModuleId
  /-- The modules that wait for a module that has just finished, and have not been told yet. -/
  due : List ModuleId
  /-- The job in hand. -/
  hand : List Job
  events : List Event

/-- The scene of a machine. -/
def Machine.scene (M : Machine) (H : List Event) : Scene :=
  { store := M.store
    tours := M.tours
    queue := M.queue
    lone := M.lone
    due := []
    hand := M.current.hand
    events := H }

/-- The scene of a state. -/
def State.scene (H : List Event) : State → Scene
  | .idle s => ⟨s, [], [], [], [], [], H⟩
  | .busy _ M => M.scene H

/-- What was loaded for requests has not changed. -/
def SameImports (s s' : Store) : Prop := ∀ m r, s'.imported? m r = s.imported? m r

/-- A module that a walk was executing waits for others from now on. -/
def Store.holdModule (s : Store) (m : ModuleId) : Store :=
  s.modifySource m fun r ↦ { r with asyncState := .pending }

/-- A module that a walk was searching waits from now on, if it waits for others. -/
def Store.holdSearched (s : Store) (m : ModuleId) : Store :=
  s.modifySource m fun r ↦ if r.pendingAsync = 0 then r else { r with asyncState := .pending }

/-- Completes the modules of a component. -/
def Store.completeMembers (s : Store) (root : ModuleId) (ms : List ModuleId) : Store :=
  ms.foldl (fun s m ↦ EvaluationWalk.completeMember s root m) s

/-- The module has finished, and those who wait for its evaluation are told. -/
def Store.finishModule (s : Store) (m : ModuleId) : Store :=
  ((s.settleAsync m).setStatus m .evaluated).resolveCapability m

/-- A searched module that waited no longer does. -/
def Store.finishSearched (s : Store) (m : ModuleId) : Store :=
  ((s.setStatus m .asyncSubgraphsEvaluated).settleAsync m).resolveCapability m

/-- A parent waits for one module less. -/
def Store.lessen (s : Store) (m : ModuleId) : Store :=
  s.modifySource m fun r ↦ { r with pendingAsync := r.pendingAsync - 1 }

/-- The modules that wait for a module. -/
def Store.parents (s : Store) (m : ModuleId) : List ModuleId :=
  ((s.source? m).map (·.asyncParents)).getD []

/-- Whoever waits for one of the modules is one of them as well, or has been evaluated. -/
def Store.Closed (s : Store) (ms : List ModuleId) : Prop :=
  ∀ d ∈ ms, ∀ x ∈ s.parents d, x ∈ ms ∨ s.status? x = some .evaluated

/-- The components are represented by the same modules. -/
def SameRoots (s s' : Store) : Prop := ∀ m, s'.cycleRoot m = s.cycleRoot m

open EvaluationWalk (await leadsBack detach)

/-- What the error of a walk comes from. -/
inductive Stance.Blames (s : Store) (w : EvaluationWalk) (e : ErrorId) (H : List Event) :
    Stance → Prop where
  /-- The module that it comes to has failed. -/
  | coming {d : ModuleId} {t : Traversal} {r : SourceText} :
      s.source? d = some r → r.arrival t = .fail e → Blames s w e H (.coming d t)
  /-- The component of the module that it is back from has failed. -/
  | back {d : ModuleId} {f : EvaluationFrame} {rest : List EvaluationFrame} {r q : SourceText} :
      w.frames = f :: rest → s.source? f.module = some r → s.source? d = some q →
      leadsBack q.status r.status = false → s.evaluationError? (s.cycleRoot d) = some e →
      Blames s w e H (.back d)
  /-- The body that it calls has failed. -/
  | running {m : ModuleId} : .ended m none (.error e) ∈ H → Blames s w e H (.running m)
  /-- A synthetic module has failed. -/
  | here : Blames s w e H .here

/-- The moves. -/
inductive Move (mode : Mode) : Scene → Scene → Prop where
  /-- Something aside from evaluation. -/
  | aside {s s' : Store} {T F X G J H} :
      Afar s s' → (T = [] ∧ mode.loads s) ∨ SameImports s s' →
      Move mode ⟨s, T, F, X, G, J, H⟩ ⟨s', T, F, X, G, J, H⟩
  /-- A call comes back. -/
  | note {s : Store} {T F X G J H} (a : Act) (r : Result) :
      Move mode ⟨s, T, F, X, G, J, H⟩ ⟨s, T, F, X, G, J, .done a r :: H⟩
  /- Walks start. -/
  | evaluate {s : Store} {m root : ModuleId} {H} :
      (s.source? m).isSome → s.evaluationRoot m = root → s.capability? root = none →
      mode.starts s →
      Move mode ⟨s, [], [], [], [], [], H⟩
        ⟨(s.newCapability root).2,
          [⟨.promise root (s.newCapability root).1, .coming root .executing, {}⟩],
          [], [], [], [], H⟩
  | force {s : Store} {T F X J H} {m : ModuleId} {r : SourceText} :
      s.source? m = some r → r.status ≠ .evaluated → r.status ≠ .evaluating →
      r.status ≠ .evaluatingAsync → s.isReady m = true →
      mode.forces ∧ (T = [] ∨ mode.nests) →
      Move mode ⟨s, T, F, X, [], J, H⟩
        ⟨s, ⟨.force m, .coming m .executing, {}⟩ :: T, F, X, [], J, H⟩
  /- Walks come to modules. -/
  | request {s : Store} {goal w m t r rs rest T F X G J H} {d : ModuleId} :
      w.frames = ⟨m, t, r :: rs⟩ :: rest → s.imported? m r = some d →
      Move mode ⟨s, ⟨goal, .here, w⟩ :: T, F, X, G, J, H⟩
        ⟨s, ⟨goal, .coming d (EvaluationWalk.nextTraversal t r),
          { w with frames := ⟨m, t, rs⟩ :: rest }⟩ :: T, F, X, G, J, H⟩
  | unloaded {s : Store} {goal w m t r rs rest T F X G J H} :
      w.frames = ⟨m, t, r :: rs⟩ :: rest → s.imported? m r = none → mode.skips →
      Move mode ⟨s, ⟨goal, .here, w⟩ :: T, F, X, G, J, H⟩
        ⟨s, ⟨goal, .here, { w with frames := ⟨m, t, rs⟩ :: rest }⟩ :: T, F, X, G, J, H⟩
  | synthetic {s : Store} {goal w t T F X G J H} {d : ModuleId} :
      s.source? d = none →
      Move mode ⟨s, ⟨goal, .coming d t, w⟩ :: T, F, X, G, J, H⟩
        ⟨s, ⟨goal, .here, w⟩ :: T, F, X, G, J, H⟩
  | pass {s : Store} {goal w t T F X G J H} {d : ModuleId} {r : SourceText} :
      s.source? d = some r → r.arrival t = .pass →
      mode.detaches ∨ SameRoots s (if r.traversal t = .executing then detach s w d else s) →
      Move mode ⟨s, ⟨goal, .coming d t, w⟩ :: T, F, X, G, J, H⟩
        ⟨if r.traversal t = .executing then detach s w d else s,
          ⟨goal, .back d, w⟩ :: T, F, X, G, J, H⟩
  | enter {s : Store} {goal w t t' T F X G J H} {d : ModuleId} {r : SourceText} :
      s.source? d = some r → r.arrival t = .enter t' → r.status ≠ .asyncSubgraphsSearching →
      (t' = .searching → mode.searches) →
      Move mode ⟨s, ⟨goal, .coming d t, w⟩ :: T, F, X, G, J, H⟩
        ⟨(EvaluationWalk.push s w d t').1, ⟨goal, .here, (EvaluationWalk.push s w d t').2⟩ :: T,
          F, X, G, J, H⟩
  /- Walks are back at a module. -/
  | leaveLast {s : Store} {goal w T F X G J H} {d : ModuleId} :
      w.frames = [] →
      Move mode ⟨s, ⟨goal, .back d, w⟩ :: T, F, X, G, J, H⟩ ⟨s, ⟨goal, .here, w⟩ :: T, F, X, G, J, H⟩
  | leaveBack {s : Store} {goal st w f rest T F X G J H} {d : ModuleId} {r q : SourceText} :
      st = .back d ∨ st = .through d ∧ s.isComponentRoot d = false → w.frames = f :: rest →
      s.source? f.module = some r → s.source? d = some q → leadsBack q.status r.status = true →
      Move mode ⟨s, ⟨goal, st, w⟩ :: T, F, X, G, J, H⟩
        ⟨await (s.lowerAncestor f.module q.dfsAncestorIndex) f.module d,
          ⟨goal, .here, w⟩ :: T, F, X, G, J, H⟩
  | leaveSearched {s : Store} {goal st w f rest T F X G J H} {d : ModuleId} {r q : SourceText} :
      st = .back d ∨ st = .through d ∧ s.isComponentRoot d = false → w.frames = f :: rest →
      s.source? f.module = some r → s.source? d = some q → leadsBack q.status r.status = false →
      q.status = .asyncSubgraphsSearching →
      Move mode ⟨s, ⟨goal, st, w⟩ :: T, F, X, G, J, H⟩
        ⟨await s f.module d, ⟨goal, .here, w⟩ :: T, F, X, G, J, H⟩
  | leaveOff {s : Store} {goal w f rest T F X G J H} {d : ModuleId} {r q : SourceText} :
      w.frames = f :: rest → s.source? f.module = some r →
      s.source? d = some q → leadsBack q.status r.status = false →
      q.status ≠ .asyncSubgraphsSearching → s.evaluationError? (s.cycleRoot d) = none →
      Move mode ⟨s, ⟨goal, .back d, w⟩ :: T, F, X, G, J, H⟩
        ⟨await s f.module (s.cycleRoot d), ⟨goal, .here, w⟩ :: T, F, X, G, J, H⟩
  /- Walks are through with the requests of a module. -/
  | hold {s : Store} {goal w m rest T F X G J H} {r : SourceText} :
      w.frames = ⟨m, .executing, []⟩ :: rest → s.source? m = some r → 0 < r.pendingAsync →
      Move mode ⟨s, ⟨goal, .here, w⟩ :: T, F, X, G, J, H⟩
        ⟨s.holdModule m, ⟨goal, .through m, { w with frames := rest }⟩ :: T, F, X, G, J, H⟩
  | run {s : Store} {goal w m rest T F X G J H} {r : SourceText} :
      w.frames = ⟨m, .executing, []⟩ :: rest → s.source? m = some r → r.pendingAsync = 0 →
      r.entries.awaits = false →
      Move mode ⟨s, ⟨goal, .here, w⟩ :: T, F, X, G, J, H⟩
        ⟨s, ⟨goal, .running m, { w with frames := rest }⟩ :: T, F, X, G, J, .began m none :: H⟩
  | runAsync {s : Store} {goal w m rest T F X G J H} {r : SourceText} :
      w.frames = ⟨m, .executing, []⟩ :: rest → s.source? m = some r → r.pendingAsync = 0 →
      r.entries.awaits = true →
      Move mode ⟨s, ⟨goal, .here, w⟩ :: T, F, X, G, J, H⟩
        ⟨(s.startAsync m).2, ⟨goal, .running m, { w with frames := rest }⟩ :: T, F, X, G, J,
          .began m (some (s.startAsync m).1) :: H⟩
  | search {s : Store} {goal w m rest T F X G J H} :
      w.frames = ⟨m, .searching, []⟩ :: rest →
      Move mode ⟨s, ⟨goal, .here, w⟩ :: T, F, X, G, J, H⟩
        ⟨s.holdSearched m, ⟨goal, .through m, { w with frames := rest }⟩ :: T, F, X, G, J, H⟩
  | ended {s : Store} {goal w m T F X G J H} {capability : Option PromiseId} {c : Completion} :
      .began m capability ∈ H → c = .ok () ∨ capability.isSome →
      Move mode ⟨s, ⟨goal, .running m, w⟩ :: T, F, X, G, J, H⟩
        ⟨s, ⟨goal, .through m, w⟩ :: T, F, X, G, J, .ended m capability c :: H⟩
  | pop {s : Store} {goal w m above below T F X G J H} :
      w.stack = above ++ m :: below → m ∉ above → s.isComponentRoot m = true →
      Move mode ⟨s, ⟨goal, .through m, w⟩ :: T, F, X, G, J, H⟩
        ⟨s.completeMembers m (above ++ [m]), ⟨goal, .back m, { w with stack := below }⟩ :: T,
          F, X, G, J, H⟩
  /- Walks end. -/
  | done {s : Store} {goal w T F X G J H} :
      w.frames = [] →
      Move mode ⟨s, ⟨goal, .here, w⟩ :: T, F, X, G, J, H⟩ ⟨(goal.finish s).1, T, F, X, G, J, H⟩
  | fail {s : Store} {goal st w T F X G J H} (e : ErrorId) :
      mode.opens ∨ s.Closed w.stack → st.Blames s w e H → mode.fails →
      Move mode ⟨s, ⟨goal, st, w⟩ :: T, F, X, G, J, H⟩
        ⟨(goal.fail s w.stack e).1, T, F, X, G, J, H⟩
  /-- The body of a module that a walk executed has failed. -/
  | failed {s : Store} {T F X G J H} {m : ModuleId} (e : ErrorId) :
      .began m none ∈ H → mode.fails →
      Move mode ⟨s, T, F, X, G, J, H⟩ ⟨s, T, F, X, G, J, .ended m none (.error e) :: H⟩
  /- Modules that were waited for finish. -/
  | take {s : Store} {j : Job} {rest : List Job} {H} :
      s.jobs = j :: rest →
      Move mode ⟨s, [], [], [], [], [], H⟩ ⟨{ s with jobs := rest }, [], [], [], [], [j], H⟩
  | drop {s : Store} {T F X G H} {j : Job} :
      (∀ m, j.reaction ≠ .completeModule m) →
      Move mode ⟨s, T, F, X, G, [j], H⟩ ⟨s, T, F, X, G, [], H⟩
  | late {s : Store} {m : ModuleId} {H} :
      s.status? m = some .evaluated →
      Move mode ⟨s, [], [], [], [], [⟨.completeModule m, .ok ()⟩], H⟩ ⟨s, [], [], [], [], [], H⟩
  | fulfill {s : Store} {m : ModuleId} {r : SourceText} {H} :
      s.source? m = some r → r.status ≠ .evaluated →
      Move mode ⟨s, [], [], [], [], [⟨.completeModule m, .ok ()⟩], H⟩
        ⟨s.finishModule m, [], [], [], r.asyncParents, [], H⟩
  | reject {s : Store} {m : ModuleId} {e : ErrorId} {H} :
      mode.fails →
      Move mode ⟨s, [], [], [], [], [⟨.completeModule m, .error e⟩], H⟩
        ⟨s.rejectModule m e, [], [], [], [], [], H⟩
  | skip {s : Store} {m : ModuleId} {F G H} :
      m ∈ F ∨ s.isBeyondWaiting m = true ∨ s.source? m = none →
      Move mode ⟨s, [], F, [], m :: G, [], H⟩ ⟨s, [], F, [], G, [], H⟩
  | lessen {s : Store} {m : ModuleId} {r : SourceText} {F G H} :
      m ∉ F → s.isBeyondWaiting m = false → s.source? m = some r → r.pendingAsync - 1 ≠ 0 →
      Move mode ⟨s, [], F, [], m :: G, [], H⟩ ⟨s.lessen m, [], F, [], G, [], H⟩
  | release {s : Store} {m : ModuleId} {r : SourceText} {F G H} :
      m ∉ F → s.isBeyondWaiting m = false → s.source? m = some r → r.pendingAsync - 1 = 0 →
      Move mode ⟨s, [], F, [], m :: G, [], H⟩
        ⟨s.lessen m, [], F ++ [m], [],
          (if r.entries.awaits then [] else r.asyncParents) ++ G, [], H⟩
  /- Modules that were set free are executed. -/
  | past {s : Store} {m : ModuleId} {F H} :
      s.source? m = none ∨ s.status? m = some .evaluated →
      Move mode ⟨s, [], m :: F, [], [], [], H⟩ ⟨s, [], F, [], [], [], H⟩
  | pastSearched {s : Store} {m : ModuleId} {r : SourceText} {F H} :
      s.source? m = some r → r.entries.awaits = false →
      r.status = .asyncSubgraphsSearchingAsync →
      Move mode ⟨s, [], m :: F, [], [], [], H⟩ ⟨s.finishSearched m, [], F, [], [], [], H⟩
  | free {s : Store} {m : ModuleId} {r : SourceText} {F H} :
      s.source? m = some r → r.status ≠ .evaluated → r.entries.awaits = false →
      r.status ≠ .asyncSubgraphsSearchingAsync →
      Move mode ⟨s, [], m :: F, [], [], [], H⟩ ⟨s, [], F, [m], [], [], .began m none :: H⟩
  | freeAsync {s : Store} {m : ModuleId} {r : SourceText} {F H} :
      s.source? m = some r → r.status ≠ .evaluated → r.entries.awaits = true →
      Move mode ⟨s, [], m :: F, [], [], [], H⟩
        ⟨(s.startAsync m).2, [], F, [], [], [], .began m (some (s.startAsync m).1) :: H⟩
  | freed {s : Store} {m : ModuleId} {F H} :
      Move mode ⟨s, [], F, [m], [], [], H⟩
        ⟨s.finishModule m, [], F, [], [], [], .ended m none (.ok ()) :: H⟩
  | freedError {s : Store} {m : ModuleId} {e : ErrorId} {F H} :
      mode.fails →
      Move mode ⟨s, [], F, [m], [], [], H⟩
        ⟨s.rejectModule m e, [], F, [], [], [], .ended m none (.error e) :: H⟩
  | freedAsync {s : Store} {m : ModuleId} {p : PromiseId} {c : Completion} {F X H} :
      .began m (some p) ∈ H →
      Move mode ⟨s, [], F, X, [], [], H⟩ ⟨s, [], F, X, [], [], .ended m (some p) c :: H⟩

/-- Moves in a row. -/
abbrev Moves (mode : Mode) : Scene → Scene → Prop := Relation.ReflTransGen (Move mode)

/-! ## Walks of calls -/

/-- There is one walk at a time, that of a call, and nothing else is to be done while it is under
way. -/
structure Scene.Alone (S : Scene) : Prop where
  single : S.tours.length ≤ 1
  alone : S.tours ≠ [] → S.queue = [] ∧ S.lone = [] ∧ S.due = []
  goals : ∀ τ ∈ S.tours, ∃ root p, τ.goal = .promise root p

namespace Scene.Alone

variable {s s' : Store} {τ τ' : Tour} {T : List Tour} {F F' X X' G G' : List ModuleId}
  {J J' : List Job} {H H' : List Event}

/-- No walk is under way. -/
theorem idle : Alone ⟨s, [], F, X, G, J, H⟩ := ⟨Nat.zero_le _, fun h ↦ absurd rfl h, nofun⟩

/-- Walks are where they were. -/
theorem same (h : Alone ⟨s, T, F, X, G, J, H⟩) : Alone ⟨s', T, F, X, G, J', H'⟩ :=
  ⟨h.single, h.alone, h.goals⟩

/-- The walk goes on. -/
theorem walk (h : Alone ⟨s, τ :: T, F, X, G, J, H⟩) (hgoal : τ'.goal = τ.goal) :
    Alone ⟨s', τ' :: T, F, X, G, J', H'⟩ := by
  refine ⟨h.single, fun _ ↦ h.alone (List.cons_ne_nil _ _), ?_⟩
  obtain ⟨hhead, htail⟩ := List.forall_mem_cons.1 h.goals
  exact List.forall_mem_cons.2 ⟨hgoal ▸ hhead, htail⟩

theorem tours_eq (h : Alone ⟨s, τ :: T, F, X, G, J, H⟩) : T = [] := by
  have hsingle : (τ :: T).length ≤ 1 := h.single
  exact List.length_eq_zero_iff.1 (by simpa using hsingle)

/-- The walk ends. -/
theorem tail (h : Alone ⟨s, τ :: T, F, X, G, J, H⟩) : Alone ⟨s', T, F', X', G', J', H'⟩ := by
  obtain rfl := h.tours_eq
  exact idle

end Scene.Alone

/-- If reading starts no walks, there are no others than those of calls. -/
theorem Move.alone {mode : Mode} {S S' : Scene} (hmove : Move mode S S') (hmode : ¬mode.forces)
    (h : S.Alone) : S'.Alone := by
  cases hmove with
  | evaluate =>
    exact ⟨Nat.le_refl _, fun _ ↦ ⟨rfl, rfl, rfl⟩, List.forall_mem_singleton.2 ⟨_, _, rfl⟩⟩
  | force _ _ _ _ _ hforces => exact absurd hforces.1 hmode
  | done => exact h.tail
  | fail => exact h.tail
  | _ => first | exact .idle | exact h.same | exact h.walk rfl

end EcmaModules
