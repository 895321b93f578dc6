import EcmaModules.Syntax.Lexer
import EcmaModules.Syntax.Tree

/-!
# Readers of the grammar

A reader of the grammar, `Reader α`, consumes tokens and gives back a part of the tree, or fails.
There is one way to fail: a text that breaks a rule is no module, and nothing is said about why.

What a rule allows depends on where it is used; `Place` holds that. The rules of the grammar call
each other in circles. A rule is therefore a function of a record `Rules` of readers for the rules
it leads back to, and the circle is closed in one place, where every round spends fuel. The number
of rounds that are open at one time is bounded by the length of the text.

A text in parentheses can begin an arrow function, which shows only after the closing parenthesis.
Where the first tokens leave that open, the reader tries the parameters of an arrow function first.
Places where this failed are remembered, also across the failure of a reader that contains the
place, so no text in parentheses is tried twice; this is what a failing reader gives back.
-/

namespace EcmaModules.Syntax

/-! ## Readers -/

/-- Where a rule of the grammar is used. -/
structure Place where
  /-- `in` is an operator here; it is not in the head of a `for` statement. -/
  allowsIn : Bool := true
  /-- `await` is an operator here. -/
  allowsAwait : Bool := true
  /-- `yield` is an operator here. -/
  allowsYield : Bool := false
  /-- `return` is allowed here. -/
  allowsReturn : Bool := false
  /-- A decorator is read: a bracket after it begins the key of a class element. -/
  inDecorator : Bool := false
deriving Repr, Inhabited

/-- What a reader has in front of it, and what it has to remember. -/
structure ReaderState where
  current : Lexeme
  /-- The places where no arrow function begins, by the length of the text from there on. -/
  notArrow : List Nat
  /-- The number of members `name = value` that have not become part of a pattern. -/
  openDefaults : Nat
  /-- The exported names so far. -/
  exported : List String

/-- A reader. It fails with the places where no arrow function begins. -/
abbrev Reader := StateT ReaderState (Except (List Nat))

namespace Reader

/-- Fails. -/
def fail {α : Type} : Reader α :=
  fun s ↦ .error s.notArrow

/-- Goes on if the condition holds. -/
def require (condition : Bool) : Reader Unit :=
  if condition then pure () else fail

/-- Gives back the value, if there is one. -/
def ofOption {α : Type} : Option α → Reader α
  | some a => pure a
  | none => fail

/-- Runs a reader; if it fails, nothing has been read. -/
def attempt {α : Type} (r : Reader α) : Reader (Option α) := fun s ↦
  match r s with
  | .ok (a, s) => .ok (some a, s)
  | .error notArrow => .ok (none, { s with notArrow := notArrow })

/-- The token in front. -/
def peek : Reader Token :=
  return (← get).current.token

/-- The token in front, in its place. -/
def here : Reader Lexeme :=
  return (← get).current

/-- The token after the one in front. -/
def peekNext : Reader Lexeme :=
  return Lexeme.first (← get).current.rest

/-- Moves on to the next token. -/
def advance : Reader Unit :=
  modify fun s ↦ { s with current := Lexeme.first s.current.rest }

/-- Reads the token in front again in another sense. -/
def reread (f : Lexeme → Lexeme) : Reader Unit :=
  modify fun s ↦ { s with current := f s.current }

/-- The length of the text that is left; more than the number of its tokens. -/
def size : Reader Nat :=
  return (← get).current.start.length + 1

/-- The punctuator is in front. -/
def atPunct (p : Punct) : Reader Bool :=
  return (← peek) == .punct p

/-- The word is in front, spelled without escape sequences. -/
def atWord (name : String) : Reader Bool :=
  return (← peek) == .word name false

/-- Reads the punctuator if it is in front. -/
def eat (p : Punct) : Reader Bool := do
  if ← atPunct p then advance; return true
  else return false

/-- Reads the word if it is in front. -/
def eatWord (name : String) : Reader Bool := do
  if ← atWord name then advance; return true
  else return false

/-- Reads the punctuator, which has to be in front. -/
def expect (p : Punct) : Reader Unit := do
  require (← eat p)

/-- Reads the word, which has to be in front. -/
def expectWord (name : String) : Reader Unit := do
  require (← eatWord name)

/-- A line ends before the token in front. -/
def afterNewline : Reader Bool :=
  return (← here).newlineBefore

/-- Reads the end of a statement: a semicolon, which may be left out before a closing brace, at the
end of the text and at the end of a line. -/
def endStatement : Reader Unit := do
  if ← eat .semicolon then return
  let l ← here
  require (l.token == .punct .rbrace || l.token == .eof || l.newlineBefore)

/-! ## Repetition -/

/-- Reads items until the end is in front. -/
def manyFrom {α : Type} (atEnd : Reader Bool) (item : Reader α) : Nat → List α → Reader (List α)
  | 0, _ => fail
  | fuel + 1, found => do
    if ← atEnd then return found.reverse
    let a ← item
    manyFrom atEnd item fuel (a :: found)

/-- Reads items until the end is in front. Every item is at least one token. -/
def many {α : Type} (atEnd : Reader Bool) (item : Reader α) : Reader (List α) := do
  manyFrom atEnd item (← size) []

/-- Reads items with commas between them. -/
def commasFrom {α : Type} (close : Punct) (item : Reader α) :
    Nat → List α → Reader (List α × Bool)
  | 0, _ => fail
  | fuel + 1, found => do
    let a ← item
    let found := a :: found
    if ← eat .comma then
      if ← eat close then return (found.reverse, true)
      commasFrom close item fuel found
    else
      expect close
      return (found.reverse, false)

/-- Reads a list with commas up to the closing punctuator, and whether a comma ends it. -/
def commas {α : Type} (close : Punct) (item : Reader α) : Reader (List α × Bool) := do
  if ← eat close then return ([], false)
  commasFrom close item (← size) []

/-- Reads one item or more with commas between them. -/
def commaSeparatedFrom {α : Type} (item : Reader α) : Nat → List α → Reader (List α)
  | 0, _ => fail
  | fuel + 1, found => do
    let a ← item
    let found := a :: found
    if ← eat .comma then commaSeparatedFrom item fuel found
    else return found.reverse

/-- Reads one item or more with commas between them. -/
def commaSeparated {α : Type} (item : Reader α) : Reader (List α) := do
  commaSeparatedFrom item (← size) []

end Reader

/-! ## Words -/

/-- The words that are never identifiers. -/
def reservedWords : List String :=
  ["break", "case", "catch", "class", "const", "continue", "debugger", "default", "delete", "do",
   "else", "enum", "export", "extends", "false", "finally", "for", "function", "if", "import",
   "in", "instanceof", "new", "null", "return", "super", "switch", "this", "throw", "true", "try",
   "typeof", "var", "void", "while", "with"]

/-- The word is never an identifier. -/
def isReserved (name : String) : Bool :=
  reservedWords.contains name

/-- The words that may not be exported without a module to take them from, besides the reserved
ones. -/
def unexportableWords : List String :=
  ["await", "yield", "implements", "interface", "let", "package", "private", "protected", "public",
   "static"]

/-- The word is an identifier in this place. -/
def Place.isIdentifier (c : Place) (name : String) : Bool :=
  !isReserved name && !(name == "await" && c.allowsAwait) && !(name == "yield" && c.allowsYield)

/-- The token can be an identifier in some place. -/
def Token.isIdentifier : Token → Bool
  | .word name _ => !isReserved name
  | _ => false

/-- The token can begin the name of a member. -/
def Token.beginsKey : Token → Bool
  | .word .. | .string .. | .number | .privateName _ | .punct .lbracket => true
  | _ => false

/-- The token is a word or a literal and not an operator: after `await` or `yield` on the same line
it shows that an operator is meant. -/
def Token.beginsOperand : Token → Bool
  | .word name _ => name != "in" && name != "instanceof"
  | .number | .string .. | .regex => true
  | _ => false

/-- Reads an identifier. -/
def readIdentifier (c : Place) : Reader String := do
  match ← Reader.peek with
  | .word name _ =>
    Reader.require (c.isIdentifier name)
    Reader.advance
    return name
  | _ => Reader.fail

/-! ## The circle -/

/-- The rules that others lead back to. -/
structure Rules where
  /-- An expression without a comma. -/
  assignment : Place → Reader Expression
  /-- Operators of a higher precedence than the given one, and whether the outermost operator is
  `||` or `&&`. -/
  binary : Place → Nat → Reader (Expression × Bool)
  unary : Place → Reader Expression
  /-- Members and calls, without an operator. -/
  leftHandSide : Place → Reader Expression
  /-- What can stand after `new`, and whether it has a `?.`. -/
  callee : Place → Reader (Expression × Bool)
  /-- A pattern of a declaration. -/
  pattern : Place → Reader Pattern
  /-- A statement; `alone` if it is the whole body of another statement. -/
  statement : Place → (alone : Bool) → Reader Statement

end EcmaModules.Syntax
