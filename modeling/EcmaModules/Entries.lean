import EcmaModules.Syntax.Await
import EcmaModules.Syntax.Parser

/-!
# Entries of a module

What a module's text says about the graph it belongs to: which modules it requests, which names it
imports, which names it exports and where those come from, and whether it awaits at its top level.

Each list is in the order of the text. A request that is made several times is listed once, at its
first occurrence; it is deferred only if every occurrence is. An import or export entry keeps the
request of its own declaration, phase included.

An exported variable that was imported by name is a re-export of that name. Such an entry comes
after the re-exports that the text spells out.
-/

namespace EcmaModules

/-- An imported name, `none` for the namespace, with the name it has in the module. -/
structure ImportEntry where
  request : Request
  imported : Option String
  localName : String
deriving Repr, DecidableEq, Inhabited

/-- A variable of the module that is exported. -/
structure LocalExport where
  exported : String
  localName : String
deriving Repr, DecidableEq, Inhabited

/-- A name of another module that is exported, `none` for its namespace. -/
structure IndirectExport where
  exported : String
  request : Request
  imported : Option String
deriving Repr, DecidableEq, Inhabited

/-- The entries of a module. -/
structure Entries where
  requests : List Request := []
  imports : List ImportEntry := []
  localExports : List LocalExport := []
  indirectExports : List IndirectExport := []
  starExports : List Request := []
  awaits : Bool := false
deriving Repr, DecidableEq, Inhabited

namespace Entries

open Syntax

/-! ## Requests -/

/-- Puts an attribute in front of the first one whose key does not come before its own. -/
def insertAttribute (a : Attribute) : List Attribute → List Attribute
  | [] => [a]
  | b :: r => if b.key < a.key then b :: insertAttribute a r else a :: b :: r

/-- Sorts attributes by their keys; equal keys keep their order. -/
def sortAttributes (as : List Attribute) : List Attribute :=
  as.foldr insertAttribute []

/-- The request that a declaration makes, with its attributes sorted. Where deferred imports are
switched off, every request is one for evaluation. -/
def normalize (deferring : Bool) (r : Request) : Request :=
  { r with
    attributes := sortAttributes r.attributes
    phase := if deferring then r.phase else .evaluation }

/-- Adds a request to those made before. If it was made before, a request for evaluation makes
that one a request for evaluation. -/
def addRequest : List Request → Request → List Request
  | [], r => [r]
  | s :: ss, r =>
    if s.same r then
      (if r.phase = .evaluation then { s with phase := .evaluation } else s) :: ss
    else s :: addRequest ss r

/-! ## Declarations -/

/-- The name that an unnamed default export has in its module. -/
def defaultBinding : String := "*default*"

/-- The request of a declaration. -/
def requestOf? : Declaration → Option Request
  | .imports _ r => some r
  | .exportAll _ r => some r
  | .exportFrom _ r => some r
  | _ => none

/-- The import entries of a declaration. -/
def importsOf (deferring : Bool) : Declaration → List ImportEntry
  | .imports specifiers r =>
    specifiers.map fun s ↦ ⟨normalize deferring r, s.imported, s.name⟩
  | _ => []

/-- The variables that a declaration exports. -/
def localExportsOf : Declaration → List LocalExport
  | .exportNames specifiers => specifiers.map fun s ↦ ⟨s.exported, s.name⟩
  | .exportVariables v => v.names.map fun name ↦ ⟨name, name⟩
  | .exportFunction name => [⟨name, name⟩]
  | .exportClass c => c.name?.toList.map fun name ↦ ⟨name, name⟩
  | .exportDefault _ => [⟨"default", defaultBinding⟩]
  | .exportDefaultFunction name => [⟨"default", name.getD defaultBinding⟩]
  | .exportDefaultClass c => [⟨"default", c.name?.getD defaultBinding⟩]
  | _ => []

/-- The names of other modules that a declaration exports. -/
def indirectExportsOf (deferring : Bool) : Declaration → List IndirectExport
  | .exportAll (some exported) r => [⟨exported, normalize deferring r, none⟩]
  | .exportFrom specifiers r =>
    specifiers.map fun s ↦ ⟨s.exported, normalize deferring r, some s.name⟩
  | _ => []

/-- The request of a declaration that exports everything from it. -/
def starExportsOf (deferring : Bool) : Declaration → List Request
  | .exportAll none r => [normalize deferring r]
  | _ => []

/-- The declarations at the top of a module. -/
def declarations (body : List Statement) : List Declaration :=
  body.filterMap fun
    | .declaration d => some d
    | _ => none

/-- The re-export that an exported variable is, if the variable was imported by name. -/
def reexport? (imports : List ImportEntry) (e : LocalExport) : Option IndirectExport :=
  match imports.find? (·.localName == e.localName) with
  | some i => i.imported.map fun name ↦ ⟨e.exported, i.request, some name⟩
  | none => none

/-- The entries of a module with the given statements. -/
def ofBody (deferring : Bool) (body : List Statement) : Entries :=
  let ds := declarations body
  let imports := ds.flatMap (importsOf deferring)
  let locals := ds.flatMap localExportsOf
  { requests := ((ds.filterMap requestOf?).map (normalize deferring)).foldl addRequest []
    imports := imports
    localExports := locals.filter fun e ↦ (reexport? imports e).isNone
    indirectExports :=
      ds.flatMap (indirectExportsOf deferring) ++ locals.filterMap (reexport? imports)
    starExports := ds.flatMap (starExportsOf deferring)
    awaits := statementsAwait body }

/-- The entries of a module with the given text, if it is a module. -/
def ofText? (deferring : Bool) (text : String) : Option Entries :=
  (parse? text).map (ofBody deferring)

end Entries

end EcmaModules
