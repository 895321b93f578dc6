/-!
# Module requests

A module asks for another one by a specifier and import attributes, in one of two phases: to be
evaluated before the importing module runs, or deferred until one of its exports is read. Two
requests ask for the same module when specifier and attributes agree; the phase and the order of
the attributes do not matter.
-/

namespace EcmaModules

/-- When the requested module has to be evaluated. -/
inductive Phase where
  /-- Only when one of its exports is first read. -/
  | defer
  /-- Before the requesting module. -/
  | evaluation
deriving Repr, DecidableEq, Inhabited

/-- The name of a phase. -/
def Phase.name : Phase → String
  | .defer => "defer"
  | .evaluation => "evaluation"

/-- An import attribute, `with { key: "value" }`. -/
structure Attribute where
  key : String
  value : String
deriving Repr, DecidableEq, Inhabited

/-- A request for a module. -/
structure Request where
  specifier : String
  attributes : List Attribute := []
  phase : Phase := .evaluation
deriving Repr, DecidableEq, Inhabited

namespace Request

/-- The value of the first attribute with the given key. -/
def attribute? (r : Request) (key : String) : Option String :=
  (r.attributes.find? (·.key == key)).map (·.value)

/-- The requests ask for the same module: the specifiers are equal, there are equally many
attributes, and each attribute of the left one occurs in the right one. -/
def same (left right : Request) : Bool :=
  left.specifier == right.specifier
    && left.attributes.length == right.attributes.length
    && left.attributes.all fun a ↦ right.attributes.contains a

/-- The specifier followed by the attributes in their order: the name under which a host that does
not sort attributes files a request. -/
def key (r : Request) : String :=
  r.attributes.foldl (fun text a ↦ text ++ ";" ++ a.key ++ "=" ++ a.value) r.specifier

end Request

end EcmaModules
