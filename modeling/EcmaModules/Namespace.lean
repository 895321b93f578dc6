import EcmaModules.Exports
import EcmaModules.Text.Utf16

/-!
# Namespaces

A namespace shows the exports of a module as an object. A module has up to two of them, a plain one
and a deferred one, and each is made when it is first asked for. Its keys are fixed then: the
exported names that stand for something, in the order of their code units.

What an export holds is found when it is read. An imported variable is read from the module that it
was imported from, and so on until a module has the variable itself.

Reading from a deferred namespace first evaluates its module; that is the business of whoever reads
(`EcmaModules.Machine`). The reading proper, here, never runs anything.
-/

namespace EcmaModules.Store

/-! ## Making namespaces -/

/-- Puts a name in front of the first one that comes after it; a name that is there already is not put
in again. -/
def insertKey (name : String) : List String → List String
  | [] => [name]
  | key :: rest =>
    match Text.compare name key with
    | .lt => name :: key :: rest
    | .eq => key :: rest
    | .gt => key :: insertKey name rest

/-- Names in the order of their code units, each once. -/
def sortKeys (names : List String) : List String :=
  names.foldr insertKey []

/-- The keys that a namespace of the module has when it is made. -/
def namespaceKeys (s : Store) (m : ModuleId) : List String :=
  sortKeys ((s.exportedNames m).filter fun name ↦ (s.resolveExport m name).isBinding)

/-- The namespace of a module for requests of the phase, if it has been made. -/
def madeNamespace? (s : Store) (m : ModuleId) (phase : Phase) : Option NamespaceId :=
  (s.module? m).bind fun r ↦
    match phase with
    | .defer => r.deferredId
    | .evaluation => r.namespaceId

/-- Makes a namespace of the module. -/
def makeNamespace (s : Store) (m : ModuleId) (phase : Phase) : NamespaceId × Store :=
  let n : NamespaceId := ⟨s.namespaces.size⟩
  let space : Namespace := ⟨m, s.namespaceKeys m, phase = .defer⟩
  let s := { s with namespaces := s.namespaces.push space }
  (n, s.modifyModule m fun r ↦
    match phase with
    | .defer => { r with deferredId := some n }
    | .evaluation => { r with namespaceId := some n })

/-- The namespace of a module for requests of the phase. -/
def namespaceOf (s : Store) (m : ModuleId) (phase : Phase) : NamespaceId × Store :=
  match s.madeNamespace? m phase with
  | some n => (n, s)
  | none => s.makeNamespace m phase

/-! ## Reading bindings -/

/-- What the environment of a module binds an imported name to. -/
def importBinding? (s : Store) (m : ModuleId) (name : String) : Option ImportBinding :=
  ((s.source? m).bind (·.environment)).bind (·.lookup name)

/-- What a body's own variable holds. -/
def variableValue (s : Store) (m : ModuleId) (name : String) : Outcome Value × Store :=
  match ((s.module? m).map (·.bindings)).getD [] |>.lookup name with
  | some (some v) => (.ok v, s)
  | some none =>
    let (e, s) := s.throw .referenceError ("Cannot access '" ++ name ++ "' before initialization")
    (.error e, s)
  | none =>
    let (e, s) := s.throw .referenceError (name ++ " is not defined")
    (.error e, s)

/-- Reads a variable that belongs to a module. The exports of a synthetic module hold `undefined`
until they are set. -/
def ownValue (s : Store) (m : ModuleId) (name : String) : Outcome Value × Store :=
  match s.synthetic? m with
  | some r => (.ok ((r.values.lookup name).getD .undefined), s)
  | none => s.variableValue m name

/-- Follows a name through the environments to the module that owns the variable. -/
def bindingValueFrom (s : Store) : Nat → ModuleId → String → Outcome Value × Store
  | 0, _, _ => (.ok .undefined, s)
  | depth + 1, m, name =>
    match s.importBinding? m name with
    | some (.namespaceObject n) => (.ok (.namespaceObject n), s)
    | some (.indirect target name) => s.bindingValueFrom depth target name
    | none => s.ownValue m name

/-- How many imported names may be followed. Two lead to the owner of a variable unless a module
exports a name that it imports several times: such a name may lead back to itself, and is then followed
without end. -/
def followLimit : Nat := 1000000000000

/-- Reads a variable of a module. -/
def bindingValue (s : Store) (m : ModuleId) (name : String) : Outcome Value × Store :=
  s.bindingValueFrom followLimit m name

/-! ## Reading namespaces -/

/-- Looks for a name among so many sorted keys from a place on. As long as there are several of them,
one of the two halves is left over, so their number bounds the depth. -/
def searchKeys (keys : List String) (name : String) : Nat → Nat → Nat → Bool
  | 0, _, _ => false
  | depth + 1, base, size =>
    if size = 0 then false
    else if size = 1 then keys[base]?.any fun key ↦ Text.compare key name == .eq
    else
      let half := size / 2
      let later := keys[base + half]?.any fun key ↦ Text.compare key name == .gt
      searchKeys keys name depth (if later then base else base + half) (size - half)

/-- The namespace has the export. -/
def hasExport (s : Store) (n : NamespaceId) (name : String) : Bool :=
  (s.namespace? n).any fun r ↦ searchKeys r.keys name (r.keys.length + 1) 0 r.keys.length

/-- Reading the export evaluates the module first. An object with a `then` would be taken for a
promise, so this name alone is never looked up on a deferred namespace. -/
def forcedBy? (s : Store) (n : NamespaceId) (name : String) : Option ModuleId :=
  (s.namespace? n).bind fun r ↦ if r.deferred && name != "then" then some r.module else none

/-- Reads an export of a namespace whose module needs no evaluation any more. -/
def readExport (s : Store) (n : NamespaceId) (name : String) : Outcome Value × Store :=
  match s.namespace? n with
  | none => (.ok .undefined, s)
  | some r =>
    if (r.deferred && name = "then") || !s.hasExport n name then (.ok .undefined, s)
    else
      match s.resolveExport r.module name with
      | .binding m (some name) => s.bindingValue m name
      | .binding m none =>
        let (n, s) := s.namespaceOf m .evaluation
        (.ok (.namespaceObject n), s)
      | _ => (.ok .undefined, s)

end EcmaModules.Store
