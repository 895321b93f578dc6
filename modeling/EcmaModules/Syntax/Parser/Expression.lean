import EcmaModules.Syntax.Parser.Function
import EcmaModules.Syntax.Target

/-!
# Expressions

The rules for expressions, from literals up to the comma. Operators are read by precedence; the
tree does not keep which operator it was, so the rule against mixing `??` with `||` and `&&` is
checked while they are read.
-/

namespace EcmaModules.Syntax

open Reader

/-! ## Lists of expressions -/

/-- Reads expressions with commas between them. -/
def readExpression (k : Rules) (c : Place) : Reader Expression := do
  match ← commaSeparated (k.assignment c) with
  | [e] => return e
  | es => return .sequence es

/-- Reads an argument of a call. -/
def readArgument (k : Rules) (c : Place) : Reader Item := do
  if ← eat .ellipsis then return .spread (← k.assignment c)
  else return .value (← k.assignment c)

/-- Reads the arguments of a call after the opening parenthesis. -/
def readArguments (k : Rules) (c : Place) : Reader (List Item) := do
  return (← commas .rparen (readArgument k { c with allowsIn := true, inDecorator := false })).1

/-- Reads the elements of an array after the opening bracket. A comma after a spread leaves a hole
there, so that the array is not taken for a pattern. -/
def readItems (k : Rules) (c : Place) : Nat → List Item → Reader (List Item)
  | 0, _ => fail
  | fuel + 1, found => do
    if ← eat .rbracket then return found.reverse
    if ← eat .comma then readItems k c fuel (.hole :: found)
    else
      let item ← readArgument k c
      if ← eat .rbracket then return (item :: found).reverse
      expect .comma
      match item with
      | .spread _ =>
        if ← atPunct .rbracket then readItems k c fuel (.hole :: item :: found)
        else readItems k c fuel (item :: found)
      | _ => readItems k c fuel (item :: found)

/-! ## Objects -/

/-- Reads a member of an object. -/
def readMember (k : Rules) (c : Place) : Reader Member := do
  if ← eat .ellipsis then return .spread (← k.assignment c)
  let isAsync ← eatModifier "async" Token.beginsMember true
  let accessor ← if isAsync then pure none else eatAccessor
  if let some accessor := accessor then
    let (key, _) ← readKey k c
    readAccessorRest k accessor
    return .method key
  let isGenerator ← eat .star
  let isWord := (← peek).isIdentifier
  let (key, name) ← readKey k c
  if isAsync || isGenerator || (← atPunct .lparen) then
    readFunctionRest k isAsync isGenerator
    return .method key
  if ← eat .colon then return .property key (← k.assignment c)
  require isWord
  let name ← ofOption name
  require (c.isIdentifier name)
  if ← eat .assign then
    modify fun s ↦ { s with openDefaults := s.openDefaults + 1 }
    return .shorthandDefault name (← k.assignment c)
  return .shorthand name

/-! ## Templates -/

/-- Reads the rest of a template after a piece that ends before an expression. -/
def readTemplateParts (k : Rules) (c : Place) (tagged : Bool) :
    Nat → List Expression → Reader (List Expression)
  | 0, _ => fail
  | fuel + 1, found => do
    let e ← readExpression k { c with allowsIn := true, inDecorator := false }
    require (← atPunct .rbrace)
    reread Lexeme.asTemplateTail
    match ← peek with
    | .template last valid =>
      require (valid || tagged)
      advance
      if last then return (e :: found).reverse
      else readTemplateParts k c tagged fuel (e :: found)
    | _ => fail

/-- Reads a template, by the expressions in it. Only after a tag may an escape sequence be
malformed. -/
def readTemplate (k : Rules) (c : Place) (tagged : Bool) : Reader (List Expression) := do
  match ← peek with
  | .template last valid =>
    require (valid || tagged)
    advance
    if last then return []
    else readTemplateParts k c tagged (← size) []
  | _ => fail

/-! ## Primary expressions -/

/-- Reads what follows `import` in an expression. -/
def readImportRest (k : Rules) (c : Place) : Reader Expression := do
  if ← eat .dot then
    if ← eatWord "meta" then return .metaProperty
    require ((← atWord "defer") || (← atWord "source"))
    advance
  expect .lparen
  let c := { c with allowsIn := true, inDecorator := false }
  let source ← k.assignment c
  let options ←
    if ← eat .comma then
      if ← atPunct .rparen then pure none else some <$> k.assignment c
    else pure none
  if options.isSome then let _ ← eat .comma
  expect .rparen
  return .importCall source options

/-- Reads what follows `new`. -/
def readNewRest (k : Rules) (c : Place) : Reader Expression := do
  if ← eat .dot then
    expectWord "target"
    return .metaProperty
  let (callee, chained) ← k.callee c
  require !chained
  match callee with
  | .importCall .. => fail
  | _ =>
    if ← eat .lparen then return .new callee (← readArguments k c)
    else return .new callee []

/-- Reads an expression without operators, members and calls. -/
def readPrimary (k : Rules) (c : Place) : Reader Expression := do
  let inner := { c with allowsIn := true, inDecorator := false }
  match ← peek with
  | .number | .string .. => advance; return .literal
  | .template .. => return .template (← readTemplate k c false)
  | .punct .slash | .punct .slashAssign =>
    reread Lexeme.asRegex
    require ((← peek) == .regex)
    advance
    return .literal
  | .punct .lparen =>
    advance
    let (es, comma) ← commas .rparen (k.assignment inner)
    require !comma
    match es with
    | [] => fail
    | [e] => return .parenthesized e
    | es => return .parenthesized (.sequence es)
  | .punct .lbracket => advance; return .array (← readItems k inner (← size) [])
  | .punct .lbrace => advance; return .object (← commas .rbrace (readMember k inner)).1
  | .punct .at => return .classExpression (← readClass k c (← readDecorators k c))
  | .word name false =>
    match name with
    | "this" => advance; return .this
    | "null" | "true" | "false" => advance; return .literal
    | "function" => let _ ← readFunction k c true; return .function
    | "class" => return .classExpression (← readClass k c [])
    | "new" => advance; readNewRest k c
    | "import" => advance; readImportRest k c
    | "super" =>
      advance
      require ((← atPunct .lparen) || (← atPunct .dot) || (← atPunct .lbracket))
      return .super
    | _ =>
      if ← atAsyncFunction then let _ ← readFunction k c true; return .function
      else return .identifier (← readIdentifier c)
  | _ => return .identifier (← readIdentifier c)

/-! ## Members and calls -/

/-- Reads a key in brackets. -/
def readIndex (k : Rules) (c : Place) : Reader Expression := do
  expect .lbracket
  let e ← readExpression k { c with allowsIn := true, inDecorator := false }
  expect .rbracket
  return e

/-- Reads members and templates after an expression; `chained` if there was a `?.` before. -/
def readMembers (k : Rules) (c : Place) :
    Nat → Expression → (chained : Bool) → Reader (Expression × Bool)
  | 0, _, _ => fail
  | fuel + 1, e, chained => do
    match ← peek with
    | .punct .dot =>
      advance
      match ← peek with
      | .word .. => advance; readMembers k c fuel (.member e) chained
      | .privateName _ => advance; readMembers k c fuel (.privateMember e) chained
      | _ => fail
    | .punct .questionDot =>
      match (← peekNext).token with
      | .word .. => advance; advance; readMembers k c fuel (.member e) true
      | .privateName _ => advance; advance; readMembers k c fuel (.privateMember e) true
      | .punct .lbracket =>
        advance
        let key ← readIndex k c
        readMembers k c fuel (.index e key) true
      | .template .. => fail
      | _ => return (e, chained)
    | .punct .lbracket =>
      if c.inDecorator then return (e, chained)
      let key ← readIndex k c
      readMembers k c fuel (.index e key) chained
    | .template .. =>
      require !chained
      let parts ← readTemplate k c true
      readMembers k c fuel (.taggedTemplate e parts) false
    | _ => return (e, chained)

/-- Reads members and calls after an expression. -/
def readCalls (k : Rules) (c : Place) :
    Nat → Expression → (chained : Bool) → Reader (Expression × Bool)
  | 0, _, _ => fail
  | fuel + 1, e, chained => do
    let (e, chained) ← readMembers k c (← size) e chained
    if ← eat .questionDot then
      expect .lparen
      readCalls k c fuel (.call e (← readArguments k c)) true
    else if ← eat .lparen then readCalls k c fuel (.call e (← readArguments k c)) chained
    else return (e, chained)

/-- Reads what can stand after `new`. -/
def readCallee (k : Rules) (c : Place) : Reader (Expression × Bool) := do
  let e ← readPrimary k c
  readMembers k c (← size) e false

/-- Reads members and calls. -/
def readLeftHandSide (k : Rules) (c : Place) : Reader Expression := do
  let e ← readPrimary k c
  let (e, chained) ← readCalls k c (← size) e false
  return if chained then .chain e else e

/-! ## Operators -/

/-- `await` or `yield` is in front as an operator: it is one here, or what follows it shows that
one is meant. -/
def atOperatorWord (name : String) (allowed : Bool) : Reader Bool := do
  if ← atWord name then
    let next ← peekNext
    return allowed || (next.token.beginsOperand && !next.newlineBefore)
  else return false

/-- Reads an expression with the operators that take one operand. -/
def readUnary (k : Rules) (c : Place) : Reader Expression := do
  match ← peek with
  | .punct .plusPlus | .punct .minusMinus =>
    advance
    return .update (← ofOption (← k.unary c).simpleTarget?)
  | .punct .plus | .punct .minus | .punct .bang | .punct .tilde
  | .word "typeof" false | .word "void" false | .word "delete" false =>
    advance
    return .unary (← k.unary c)
  | _ =>
    if ← atOperatorWord "await" c.allowsAwait then
      require c.allowsAwait
      advance
      return .await (← k.unary c)
    let e ← readLeftHandSide k c
    if ((← atPunct .plusPlus) || (← atPunct .minusMinus)) && !(← afterNewline) then
      let target ← ofOption e.simpleTarget?
      advance
      return .update target
    return e

/-- The precedence of an operator between two operands, and whether it associates to the right. -/
def Token.precedence? : Token → Option (Nat × Bool)
  | .punct .questionQuestion => some (1, false)
  | .punct .barBar => some (2, false)
  | .punct .ampAmp => some (3, false)
  | .punct .bar => some (4, false)
  | .punct .caret => some (5, false)
  | .punct .amp => some (6, false)
  | .punct .eqEq | .punct .notEq | .punct .eqEqEq | .punct .notEqEq => some (7, false)
  | .punct .less | .punct .greater | .punct .lessEq | .punct .greaterEq => some (8, false)
  | .word "instanceof" false | .word "in" false => some (8, false)
  | .punct .shiftLeft | .punct .shiftRight | .punct .shiftRightZero => some (9, false)
  | .punct .plus | .punct .minus => some (10, false)
  | .punct .star | .punct .slash | .punct .percent => some (11, false)
  | .punct .starStar => some (12, true)
  | _ => none

/-- The expression begins with an operator that takes one operand; no power can be taken of it
without parentheses. -/
def Expression.isUnary : Expression → Bool
  | .unary _ | .await _ => true
  | _ => false

/-- Reads operators and their right operands after a left operand. The flag of an operand says
that its outermost operator is `||` or `&&` and it does not begin with a parenthesis. -/
def readOperators (k : Rules) (c : Place) (least : Nat) :
    Nat → Expression → (mixable : Bool) → (opened : Bool) → Reader (Expression × Bool)
  | 0, _, _, _ => fail
  | fuel + 1, left, isLogical, opened => do
    let t ← peek
    match t.precedence? with
    | none => return (left, isLogical)
    | some (precedence, fromRight) =>
      if precedence < least || (precedence == least && !fromRight) then
        return (left, isLogical)
      if t == .word "in" false && !c.allowsIn then return (left, isLogical)
      advance
      let rightOpened ← atPunct .lparen
      let (right, rightIsLogical) ← k.binary c precedence
      if t == .punct .questionQuestion then
        require !(rightIsLogical && !rightOpened)
        require !(isLogical && !opened)
      if t == .punct .starStar then require !left.isUnary
      let logical := t == .punct .barBar || t == .punct .ampAmp
      readOperators k c least fuel (.binary left right) logical opened

/-- Reads operands with operators of a higher precedence than `least` between them. -/
def readBinary (k : Rules) (c : Place) (least : Nat) : Reader (Expression × Bool) := do
  let opened ← atPunct .lparen
  match ← peek with
  | .privateName _ =>
    require (c.allowsIn && least < 8)
    advance
    expectWord "in"
    let (right, _) ← k.binary c 8
    readOperators k c least (← size) (.privateIn right) false opened
  | _ =>
    let left ← readUnary k c
    readOperators k c least (← size) left false opened

/-! ## Arrow functions -/

/-- What the first tokens tell about a place where an arrow function could begin. -/
inductive Likelihood where
  | no | maybe | yes
deriving DecidableEq

/-- The token is a literal. -/
def Token.isLiteral : Token → Bool
  | .number | .string .. => true
  | .word name _ => name == "null" || name == "true" || name == "false"
  | _ => false

/-- Whether an arrow function with its parameters in parentheses begins at an opening
parenthesis. -/
def likelihoodOfParameters (paren : Lexeme) : Likelihood :=
  let second := Lexeme.first paren.rest
  let third := (Lexeme.first second.rest).token
  match second.token with
  | .punct .rparen => if third == .punct .arrow || third == .punct .lbrace then .yes else .no
  | .punct .lbracket | .punct .lbrace => .maybe
  | .punct .ellipsis => if third.isIdentifier then .maybe else if third.isLiteral then .no else .yes
  | .word name _ =>
    if isReserved name then .no
    else match third with
      | .punct .comma | .punct .assign | .punct .rparen => .maybe
      | _ => .no
  | _ => .no

/-- Whether an arrow function with its parameters in parentheses begins here, possibly after
`async` on the same line. -/
def likelihoodOfArrow : Reader Likelihood := do
  let l ← here
  match l.token with
  | .punct .lparen => return likelihoodOfParameters l
  | .word "async" false =>
    let next ← peekNext
    if next.token == .punct .lparen && !next.newlineBefore then
      return likelihoodOfParameters next
    else return .no
  | _ => return .no

/-- Reads the arrow and the body of an arrow function. The body is a function of its own, so `await`
is an operator there only if the function is asynchronous, and `yield` never is. -/
def readArrowBody (k : Rules) (c : Place) (isAsync : Bool) : Reader Expression := do
  require !(← afterNewline)
  expect .arrow
  let c := { c with allowsAwait := isAsync, allowsYield := false }
  if ← atPunct .lbrace then readFunctionBody k c
  else let _ ← k.assignment c
  return .function

/-- Reads the parameters of an arrow function up to the arrow, which stays in front. They belong to
the place around the function, so what is an operator there is one in their defaults. Gives back
whether the function is asynchronous. -/
def readArrowHead (k : Rules) (c : Place) : Reader Bool := do
  let isAsync ← eatWord "async"
  let _ ← readParameters k
    { c with allowsIn := true, allowsAwait := c.allowsAwait || isAsync, inDecorator := false }
  require (← atPunct .arrow)
  return isAsync

/-- Reads an arrow function with its parameters in parentheses, if there is one. -/
def readArrow? (k : Rules) (c : Place) : Reader (Option Expression) := do
  match ← likelihoodOfArrow with
  | .no => return none
  | .yes =>
    let isAsync ← readArrowHead k c
    return some (← readArrowBody k c isAsync)
  | .maybe =>
    let place ← size
    if (← get).notArrow.contains place then return none
    match ← attempt (readArrowHead k c) with
    | some isAsync => return some (← readArrowBody k c isAsync)
    | none =>
      modify fun s ↦ { s with notArrow := place :: s.notArrow }
      return none

/-- Reads an arrow function of the form `async x => …`, if there is one. -/
def readAsyncArrow? (k : Rules) (c : Place) : Reader (Option Expression) := do
  if ← atWord "async" then
    let next ← peekNext
    let arrow := (Lexeme.first next.rest).token
    if !next.newlineBefore && next.token.isIdentifier && arrow == .punct .arrow then
      advance
      let _ ← readIdentifier { c with allowsAwait := true }
      return some (← readArrowBody k c true)
  return none

/-! ## Assignments -/

/-- The token is an assignment with an operator. -/
def Token.isOperatorAssign : Token → Bool
  | .punct p =>
    [.plusAssign, .minusAssign, .starAssign, .slashAssign, .percentAssign, .starStarAssign,
      .shiftLeftAssign, .shiftRightAssign, .shiftRightZeroAssign, .ampAssign, .barAssign,
      .caretAssign, .ampAmpAssign, .barBarAssign, .questionQuestionAssign].contains p
  | _ => false

/-- Reads the target that the expression spells. -/
def readAsPattern (e : Expression) : Reader Pattern := do
  let p ← ofOption e.toPattern?
  modify fun s ↦ { s with openDefaults := s.openDefaults - e.openDefaults }
  return p

/-- Reads the operand of `yield`, if there is one. -/
def readYield (k : Rules) (c : Place) : Reader Expression := do
  require c.allowsYield
  expectWord "yield"
  if ← afterNewline then return .yield none
  if ← eat .star then return .yield (some (← k.assignment c))
  match ← peek with
  | .eof | .punct .rbrace | .punct .rbracket | .punct .rparen | .punct .comma | .punct .colon
  | .punct .semicolon | .word "in" false | .word "of" false => return .yield none
  | _ => return .yield (some (← k.assignment c))

/-- Reads an expression without a comma. -/
def readAssignment (k : Rules) (c : Place) : Reader Expression := do
  if ← atOperatorWord "yield" c.allowsYield then return ← readYield k c
  if let some e ← readArrow? k c then return e
  if let some e ← readAsyncArrow? k c then return e
  let (left, _) ← readBinary k c 0
  match left, ← peek with
  | .identifier _, .punct .arrow => readArrowBody k c false
  | _, .punct .assign =>
    let target ← readAsPattern left
    advance
    return .assign target (← k.assignment c)
  | _, .punct .question =>
    advance
    let consequent ← k.assignment { c with allowsIn := true, inDecorator := false }
    expect .colon
    return .conditional left consequent (← k.assignment c)
  | _, t =>
    if t.isOperatorAssign then
      let target ← ofOption left.simpleTarget?
      advance
      return .assignWith target (← k.assignment c)
    return left

end EcmaModules.Syntax
