import EcmaModules.Store

/-!
# Exports

Which names a module exports, and which variable of which module each of them stands for.

A name that a module re-exports is looked up in the module it comes from, and a name that the module
does not mention is looked up behind each of its star exports. The star exports must agree: a name
for which two of them lead to different variables is ambiguous. `default` never comes from a star
export.

Re-exports may run in circles, so both functions carry along what they have come to. The list of
exported names carries modules; the resolution of a name carries modules with the names that were
looked up in them, since one module may be asked for several names on the way. What was met on one
branch counts as met on the later ones too.
-/

namespace EcmaModules

/-- What an exported name stands for. -/
inductive Resolution where
  /-- The module has no such export, or the look-up ran in a circle. -/
  | missing
  /-- Two star exports lead to different variables. -/
  | ambiguous
  /-- A variable of a module, or the namespace of the module. -/
  | binding (module : ModuleId) (name : Option String)
deriving Repr, DecidableEq, Inhabited

/-- The name stands for something. -/
def Resolution.isBinding : Resolution → Bool
  | .binding _ _ => true
  | _ => false

namespace Store

/-! ## Exported names -/

/-- Adds the names behind a star export: all but `default` and those that are there already. -/
def addStarNames (names : List String) (more : List String) : List String :=
  more.foldl (fun names n ↦ if n = "default" || names.contains n then names else names ++ [n]) names

/-- The names that a module exports, given the modules that were met before; the second part is
those met now. Every step into a star export meets another module, so the number of modules bounds
the depth. -/
def exportedNamesFrom (s : Store) :
    Nat → ModuleId → List ModuleId → List String × List ModuleId
  | 0, _, met => ([], met)
  | depth + 1, m, met =>
    match s.module? m with
    | some ⟨.synthetic r, _, _, _, _, _⟩ => (r.exportNames, met)
    | some ⟨.sourceText r, _, _, _, _, _⟩ =>
      if met.contains m then ([], met)
      else
        let own := r.entries.localExports.map (·.exported)
          ++ r.entries.indirectExports.map (·.exported)
        r.entries.starExports.foldl
          (fun acc request ↦
            match s.imported? m request with
            | some target =>
              let (more, met) := s.exportedNamesFrom depth target acc.2
              (addStarNames acc.1 more, met)
            | none => acc)
          (own, m :: met)
    | none => ([], met)

/-- The names that a module exports: its own in the order of the text, then those behind its star
exports. -/
def exportedNames (s : Store) (m : ModuleId) : List String :=
  (s.exportedNamesFrom (s.modules.size + 1) m []).1

/-! ## Resolution -/

/-- Joins the resolution found behind one more star export to that found behind the earlier ones. -/
def joinStars : Resolution → Resolution → Resolution
  | .ambiguous, _ | _, .ambiguous => .ambiguous
  | found, .missing => found
  | .missing, found => found
  | .binding m n, .binding m' n' => if m = m' && n = n' then .binding m n else .ambiguous

/-- Goes through the star exports until the name is found to be ambiguous. `look` resolves the name
in a module, given what was met before. -/
def resolveStars {Met : Type} (look : ModuleId → Met → Resolution × Met) :
    List ModuleId → Resolution → Met → Resolution × Met
  | [], found, met => (found, met)
  | target :: rest, found, met =>
    let (more, met) := look target met
    match joinStars found more with
    | .ambiguous => (.ambiguous, met)
    | found => resolveStars look rest found met

/-- Resolves an exported name, given the modules with the names that were looked up in them before;
the second part adds those looked up now. -/
def resolveExportFrom (s : Store) :
    Nat → ModuleId → String → List (ModuleId × String) → Resolution × List (ModuleId × String)
  | 0, _, _, met => (.missing, met)
  | depth + 1, m, name, met =>
    match s.module? m with
    | some ⟨.synthetic r, _, _, _, _, _⟩ =>
      (if r.exportNames.contains name then .binding m (some name) else .missing, met)
    | some ⟨.sourceText r, _, _, _, _, _⟩ =>
      if met.contains (m, name) then (.missing, met)
      else
        let met := (m, name) :: met
        match r.entries.localExports.find? (·.exported == name) with
        | some e => (.binding m (some e.localName), met)
        | none =>
          match r.entries.indirectExports.find? (·.exported == name) with
          | some e =>
            match s.imported? m e.request, e.imported with
            | some target, none => (.binding target none, met)
            | some target, some imported => s.resolveExportFrom depth target imported met
            | none, _ => (.missing, met)
          | none =>
            if name = "default" then (.missing, met)
            else
              resolveStars (fun target met ↦ s.resolveExportFrom depth target name met)
                (r.entries.starExports.filterMap (s.imported? m)) .missing met
    | none => (.missing, met)

/-- More than the number of pairs of a module and a name that one look-up can come to: the name is
the one that was asked for or one that some re-export imports. -/
def resolutionDepth (s : Store) : Nat :=
  let reexports := s.modules.foldl
    (fun n m ↦
      match m.content with
      | .sourceText r => n + r.entries.indirectExports.length
      | .synthetic _ => n) 0
  (s.modules.size + 1) * (reexports + 1) + 1

/-- What a name that is asked of a module stands for. -/
def resolveExport (s : Store) (m : ModuleId) (name : String) : Resolution :=
  (s.resolveExportFrom s.resolutionDepth m name []).1

end Store

end EcmaModules
