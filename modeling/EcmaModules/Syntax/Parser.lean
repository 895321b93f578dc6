import EcmaModules.Syntax.Parser.Statement

/-!
# Reading a module

`parse?` reads the text of a module into its statements, or gives nothing if the text breaks a
rule of the grammar. The rules are tied together here: `Rules.upTo n` lets them lead back to each
other `n` times, one inside the other. Between two such returns at least one token is read, except
for the step from a statement to its expression, so twice the length of the text is enough.
-/

namespace EcmaModules.Syntax

/-- The rules of the grammar, leading back to each other at most the given number of times. -/
def Rules.upTo : Nat → Rules
  | 0 =>
    { assignment := fun _ ↦ Reader.fail
      binary := fun _ _ ↦ Reader.fail
      unary := fun _ ↦ Reader.fail
      leftHandSide := fun _ ↦ Reader.fail
      callee := fun _ ↦ Reader.fail
      pattern := fun _ ↦ Reader.fail
      statement := fun _ _ ↦ Reader.fail }
  | n + 1 =>
    { assignment := fun c s ↦ readAssignment (Rules.upTo n) c s
      binary := fun c least s ↦ readBinary (Rules.upTo n) c least s
      unary := fun c s ↦ readUnary (Rules.upTo n) c s
      leftHandSide := fun c s ↦ readLeftHandSide (Rules.upTo n) c s
      callee := fun c s ↦ readCallee (Rules.upTo n) c s
      pattern := fun c s ↦ readPattern (Rules.upTo n) c s
      statement := fun c alone s ↦ readStatement (Rules.upTo n) c alone s }

/-- Reads statements up to the end of the text. No member `name = value` may be left over that did
not become part of a pattern. -/
def readModule (k : Rules) : Reader (List Statement) := do
  let body ← Reader.many (return (← Reader.peek) == .eof) (k.statement {} false)
  Reader.require ((← get).openDefaults == 0)
  return body

/-- Reads the text of a module. -/
def parseChars? (text : List Char) : Option (List Statement) :=
  let state : ReaderState := ⟨Lexeme.ofText text, [], 0, []⟩
  match readModule (Rules.upTo (2 * text.length + 8)) state with
  | .ok (body, _) => some body
  | .error _ => none

/-- Reads the text of a module. -/
def parse? (text : String) : Option (List Statement) :=
  parseChars? text.toList

end EcmaModules.Syntax
