import EcmaModules.Text.Decimal
import EcmaModules.Text.Quoted

/-!
# Values of module bindings

What a module binding can be observed to hold. Everything a module body produces besides the
primitive values and namespaces is opaque: it is an object that belongs to the host, known by its
label only.
-/

namespace EcmaModules

/-- A namespace object, by its place in the store. -/
structure NamespaceId where
  index : Nat
deriving Repr, DecidableEq, Inhabited

/-- The value of a binding. -/
inductive Value where
  | undefined
  | null
  | bool (b : Bool)
  | number (x : Float)
  | string (s : String)
  | namespaceObject (n : NamespaceId)
  /-- An object of the host; one label is one object. -/
  | host (label : String)
deriving Repr, Inhabited

namespace Value

/-- The value is `undefined`. -/
def isUndefined : Value → Bool
  | undefined => true
  | _ => false

/-- The name of the value's type. Namespaces and host objects count as objects, and so does
`null`. -/
def typeName : Value → String
  | undefined => "undefined"
  | null | namespaceObject _ | host _ => "object"
  | bool _ => "boolean"
  | number _ => "number"
  | string _ => "string"

/-- The written form of a value, with namespaces written by `nameOf`. -/
def text (nameOf : NamespaceId → String) : Value → String
  | undefined => "undefined"
  | null => "null"
  | bool b => if b then "true" else "false"
  | number x => Decimal.text x
  | string s => Text.quote s
  | namespaceObject n => nameOf n
  | host _ => "[object]"

/-- Two numbers are the same value if both are NaN or they have the same bits: the two zeros are
told apart. -/
def sameNumber (x y : Float) : Bool :=
  (x.isNaN && y.isNaN) || x.toBits == y.toBits

/-- The values are the same value. -/
def same : Value → Value → Bool
  | undefined, undefined => true
  | null, null => true
  | bool a, bool b => a == b
  | number x, number y => sameNumber x y
  | string a, string b => a == b
  | namespaceObject a, namespaceObject b => a == b
  | host a, host b => a == b
  | _, _ => false

end Value

end EcmaModules
