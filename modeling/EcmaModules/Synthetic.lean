import EcmaModules.Store

/-!
# Synthetic modules

A synthetic module has no text. Its exports are a fixed list of names, and steps of the host give
them values. The steps run at most once: they are taken out before they run, and how they ended is
remembered. While they run they are neither there any more nor over; whoever comes to the module
then finds nothing to do.
-/

namespace EcmaModules

/-- A synthetic module with the given exports; a name that is given twice is exported once. -/
def Synthetic.ofNames (names : List String) (steps : List Step) : Synthetic :=
  { exportNames :=
      names.foldl (fun known n ↦ if known.contains n then known else known ++ [n]) []
    steps := some steps }

/-- A synthetic module whose default export is the value. -/
def Synthetic.ofDefault (v : Value) : Synthetic :=
  .ofNames ["default"] [.setOwn "default" (.value v)]

/-- What there is to do to evaluate a synthetic module. -/
inductive SyntheticStart where
  /-- Nothing; this is how the evaluation ended. -/
  | over (c : Completion)
  /-- The steps have to be run. -/
  | run (steps : List Step)
deriving Inhabited

namespace Store

/-- Sets an export of a synthetic module. -/
def setExport (s : Store) (m : ModuleId) (name : String) (v : Value) : Completion × Store :=
  if (s.synthetic? m).any (·.exportNames.contains name) then
    (.ok (), s.modifySynthetic m fun r ↦ { r with values := (name, v) :: r.values })
  else
    let (e, s) := s.throw .referenceError ("Synthetic module does not export '" ++ name ++ "'")
    (.error e, s)

/-- Starts to evaluate a synthetic module, taking its steps out. -/
def startSynthetic (s : Store) (m : ModuleId) : SyntheticStart × Store :=
  match s.synthetic? m with
  | none => (.over (.ok ()), s)
  | some r =>
    match r.completion, r.steps with
    | some c, _ => (.over c, s)
    | none, none => (.over (.ok ()), s)
    | none, some steps => (.run steps, s.modifySynthetic m fun r ↦ { r with steps := none })

/-- Remembers how the steps of a synthetic module ended. -/
def finishSynthetic (s : Store) (m : ModuleId) (c : Completion) : Store :=
  s.modifySynthetic m fun r ↦ { r with completion := some c }

end Store

end EcmaModules
