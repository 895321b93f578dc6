/-!
# Tokens

The pieces a module's text is cut into. A token keeps what the grammar and the module's entries
need: the name of a word, the value of a string, the identity of a punctuator. The digits of a
number and the body of a regular expression are checked and dropped.
-/

namespace EcmaModules.Syntax

/-- A punctuator. -/
inductive Punct where
  | lbrace | rbrace | lparen | rparen | lbracket | rbracket
  | dot | ellipsis | semicolon | comma | colon | question | questionDot | arrow | at
  | less | greater | lessEq | greaterEq | eqEq | notEq | eqEqEq | notEqEq
  | plus | minus | star | slash | percent | starStar | plusPlus | minusMinus
  | shiftLeft | shiftRight | shiftRightZero | amp | bar | caret | bang | tilde
  | ampAmp | barBar | questionQuestion
  | assign | plusAssign | minusAssign | starAssign | slashAssign | percentAssign
  | starStarAssign | shiftLeftAssign | shiftRightAssign | shiftRightZeroAssign
  | ampAssign | barAssign | caretAssign | ampAmpAssign | barBarAssign | questionQuestionAssign
deriving Repr, DecidableEq, Inhabited

/-- A token. -/
inductive Token where
  /-- The end of the text. -/
  | eof
  | punct (p : Punct)
  /-- An identifier or a keyword; `escaped` if its spelling has an escape sequence. -/
  | word (name : String) (escaped : Bool)
  /-- A private name, `#x`. -/
  | privateName (name : String)
  | number
  /-- A string; `loneSurrogate` if its value has half of a surrogate pair. -/
  | string (value : String) (loneSurrogate : Bool)
  /-- A piece of a template. It ends the template (`last`) or is followed by an expression;
  `valid` if all its escape sequences are. -/
  | template (last : Bool) (valid : Bool)
  | regex
  /-- Text that is no token. -/
  | invalid
deriving Repr, DecidableEq, Inhabited

/-- A token in its place. -/
structure Lexeme where
  token : Token
  /-- A line ends somewhere between the token before and this one. -/
  newlineBefore : Bool
  /-- The text from the first character of the token on. -/
  start : List Char
  /-- The text after the token. -/
  rest : List Char
deriving Repr, Inhabited

end EcmaModules.Syntax
