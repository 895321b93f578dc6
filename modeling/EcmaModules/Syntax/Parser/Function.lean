import EcmaModules.Syntax.Parser.Basic

/-!
# Keys, patterns, functions and classes

The parts of the grammar that expressions and statements share. The inside of a function is read
and checked like everything else, but it leaves nothing in the tree.
-/

namespace EcmaModules.Syntax

open Reader

/-! ## Keys and patterns -/

/-- Reads the key of a member, which is not a private name. Gives back the name as well if the key
is a word. -/
def readKey (k : Rules) (c : Place) : Reader (Key × Option String) := do
  match ← peek with
  | .word name _ => advance; return (.named, some name)
  | .string .. | .number => advance; return (.named, none)
  | .punct .lbracket =>
    advance
    let e ← k.assignment { c with allowsIn := true, inDecorator := false }
    expect .rbracket
    return (.computed e, none)
  | _ => fail

/-- Reads the default of a pattern, if there is one. -/
def readDefault (k : Rules) (c : Place) : Reader (Option Expression) := do
  if ← eat .assign then return some (← k.assignment { c with allowsIn := true })
  else return none

/-- Reads an element of an array pattern. -/
def readPatternItem (k : Rules) (c : Place) : Reader PatternItem := do
  if ← atPunct .comma then return .hole
  if ← eat .ellipsis then return .rest (← k.pattern c)
  let p ← k.pattern c
  return .element p (← readDefault k c)

/-- Reads the elements of an array pattern. A rest element comes last, and no comma follows it. -/
def readPatternItems (k : Rules) (c : Place) : Nat → List PatternItem → Reader (List PatternItem)
  | 0, _ => fail
  | fuel + 1, found => do
    if ← eat .rbracket then return found.reverse
    let item ← readPatternItem k c
    match item with
    | .rest _ => expect .rbracket; return (item :: found).reverse
    | _ =>
      if ← eat .comma then readPatternItems k c fuel (item :: found)
      else expect .rbracket; return (item :: found).reverse

/-- Reads a member of an object pattern. -/
def readPatternMember (k : Rules) (c : Place) : Reader PatternMember := do
  if ← eat .ellipsis then return .rest (.leaf (.identifier (← readIdentifier c)))
  let (key, name) ← readKey k c
  if ← eat .colon then
    let p ← k.pattern c
    return .property key p (← readDefault k c)
  let name ← ofOption name
  require (c.isIdentifier name)
  return .property key (.leaf (.identifier name)) (← readDefault k c)

/-- A rest element is the last one. -/
def restComesLast : List PatternMember → Bool
  | [] => true
  | [_] => true
  | .rest _ :: _ => false
  | _ :: r => restComesLast r

/-- Reads a pattern of a declaration. -/
def readPattern (k : Rules) (c : Place) : Reader Pattern := do
  match ← peek with
  | .punct .lbracket => advance; return .array (← readPatternItems k c (← size) [])
  | .punct .lbrace =>
    advance
    let (members, comma) ← commas .rbrace (readPatternMember k c)
    require (restComesLast members)
    match members.getLast? with
    | some (.rest _) => require !comma
    | _ => pure ()
    return .object members
  | _ => return .leaf (.identifier (← readIdentifier c))

/-! ## Functions -/

/-- Reads one parameter, and tells whether it takes all remaining arguments. -/
def readParameter (k : Rules) (c : Place) : Reader Bool := do
  if ← eat .ellipsis then
    let _ ← k.pattern c
    return true
  else
    let _ ← k.pattern c
    let _ ← readDefault k c
    return false

/-- Reads the parameters of a function, with the parentheses around them. Tells of each whether it
takes all remaining arguments; only the last one may. -/
def readParameters (k : Rules) (c : Place) : Reader (List Bool) := do
  expect .lparen
  let (rests, comma) ← commas .rparen (readParameter k c)
  require (!rests.dropLast.contains true)
  require (!(comma && rests.getLast? == some true))
  return rests

/-- Reads the body of a function, with the braces around it. -/
def readFunctionBody (k : Rules) (c : Place) : Reader Unit := do
  expect .lbrace
  let _ ← many (eat .rbrace)
    (k.statement { c with allowsIn := true, allowsReturn := true, inDecorator := false } false)

/-- Reads the parameters and the body of a function. -/
def readFunctionRest (k : Rules) (isAsync isGenerator : Bool) : Reader Unit := do
  let c : Place := { allowsAwait := isAsync, allowsYield := isGenerator }
  let _ ← readParameters k c
  readFunctionBody k c

/-- Reads a function from the word `function` on, and gives back its name. The name of a function
that is an expression is read inside the function, another one outside of it. -/
def readFunction (k : Rules) (c : Place) (isExpression : Bool) : Reader (Option String) := do
  let isAsync ← eatWord "async"
  expectWord "function"
  let isGenerator ← eat .star
  let place : Place :=
    if isExpression then { c with allowsAwait := isAsync, allowsYield := isGenerator } else c
  let name ← if (← peek).isIdentifier then some <$> readIdentifier place else pure none
  readFunctionRest k isAsync isGenerator
  return name

/-- An asynchronous function begins here: the word `async` with `function` on the same line. -/
def atAsyncFunction : Reader Bool := do
  if ← atWord "async" then
    let next ← peekNext
    return next.token == .word "function" false && !next.newlineBefore
  else return false

/-! ## Classes -/

/-- Reads decorators, as many as there are. -/
def readDecorators (k : Rules) (c : Place) : Reader (List Expression) := do
  many (return !(← atPunct .at)) do
    advance
    k.leftHandSide { c with inDecorator := true }

/-- The word is in front as a modifier: the token after it begins the name of the element or
another modifier. -/
def atModifier (name : String) (beginsName : Token → Bool) (sameLine : Bool) : Reader Bool := do
  if ← atWord name then
    let next ← peekNext
    return beginsName next.token && !(sameLine && next.newlineBefore)
  else return false

/-- Reads the word if it is in front as a modifier. -/
def eatModifier (name : String) (beginsName : Token → Bool) (sameLine : Bool) : Reader Bool := do
  if ← atModifier name beginsName sameLine then advance; return true
  else return false

/-- A key, or the star of a generator. -/
def Token.beginsMember (t : Token) : Bool :=
  t.beginsKey || t == .punct .star

/-- A member that computes a property when it is read or written. -/
inductive Accessor where
  | getter | setter
deriving Repr, DecidableEq

/-- The parameters are those of the accessor: none of a getter, one of a setter, which does not
take all remaining arguments. -/
def Accessor.takes : Accessor → List Bool → Bool
  | .getter, rests => rests == []
  | .setter, rests => rests == [false]

/-- Reads the word of an accessor, if it is in front as one. -/
def eatAccessor : Reader (Option Accessor) := do
  if ← eatModifier "get" Token.beginsKey false then return some .getter
  if ← eatModifier "set" Token.beginsKey false then return some .setter
  return none

/-- Reads the parameters and the body of an accessor. -/
def readAccessorRest (k : Rules) (accessor : Accessor) : Reader Unit := do
  let c : Place := { allowsAwait := false }
  require (accessor.takes (← readParameters k c))
  readFunctionBody k c

/-- Reads the key of an element of a class, which may be a private name. Gives back the name as well
if the key is a word or a text. -/
def readClassKey (k : Rules) (c : Place) : Reader (Key × Option String) := do
  match ← peek with
  | .privateName name => require (name != "constructor"); advance; return (.named, none)
  | .string name _ => advance; return (.named, some name)
  | _ => readKey k c

/-- Two brackets, or a bracket and three dots, begin no element: they are taken for the signature
of an index, which classes do not have. -/
def atIndexSignature : Reader Bool := do
  if ← atPunct .lbracket then
    let next := (← peekNext).token
    return next == .punct .lbracket || next == .punct .ellipsis
  else return false

/-- What an element of a class is, as far as its name depends on it. -/
inductive ElementKind where
  | field
  /-- A method that is an accessor, asynchronous or a generator. -/
  | specialMethod
  | method
deriving Repr, DecidableEq

/-- The element may have the name: the prototype of a class is not an element, and the constructor
is a plain method. -/
def ElementKind.mayBeNamed (kind : ElementKind) (isStatic : Bool) (name : String) : Bool :=
  !(isStatic && name == "prototype") &&
    (name != "constructor" || match kind with
      | .field => false
      | .specialMethod => isStatic
      | .method => true)

/-- Reads an element of a class after its decorators. -/
def readClassElement (k : Rules) (c : Place) (decorators : List Expression) :
    Reader ClassElement := do
  if ← eatModifier "static" (· == .punct .lbrace) false then
    expect .lbrace
    let _ ← many (eat .rbrace) (k.statement {} false)
    return .staticBlock
  let isStatic ← eatModifier "static" Token.beginsMember false
  let isField ← eatModifier "accessor" Token.beginsKey true
  let isAsync ← if isField then pure false else eatModifier "async" Token.beginsMember true
  let accessor ← if isField || isAsync then pure none else eatAccessor
  if let some accessor := accessor then
    let (key, name) ← readClassKey k c
    require (name.all (ElementKind.specialMethod.mayBeNamed isStatic))
    readAccessorRest k accessor
    return .member decorators key
  require !(← atIndexSignature)
  let isGenerator ← if isField then pure false else eat .star
  let (key, name) ← readClassKey k c
  if isAsync || isGenerator || (!isField && (← atPunct .lparen)) then
    let kind := if isAsync || isGenerator then ElementKind.specialMethod else .method
    require (name.all (kind.mayBeNamed isStatic))
    readFunctionRest k isAsync isGenerator
    return .member decorators key
  require (name.all (ElementKind.field.mayBeNamed isStatic))
  if ← eat .assign then
    let _ ← k.assignment { allowsAwait := false }
  endStatement
  return .member decorators key

/-- Reads the body of a class. Semicolons between its elements stand for nothing. -/
def readClassBody (k : Rules) (c : Place) : Reader (List ClassElement) := do
  expect .lbrace
  let elements ← many (eat .rbrace) do
    if ← eat .semicolon then return none
    let decorators ← readDecorators k c
    return some (← readClassElement k c decorators)
  return elements.filterMap id

/-- Reads a class from the word `class` on. -/
def readClass (k : Rules) (c : Place) (decorators : List Expression) : Reader Class := do
  let c := { c with inDecorator := false }
  expectWord "class"
  let name ← if (← peek).isIdentifier then some <$> readIdentifier c else pure none
  let heritage ← if ← eatWord "extends" then some <$> k.leftHandSide c else pure none
  return .mk decorators name heritage (← readClassBody k c)

end EcmaModules.Syntax
