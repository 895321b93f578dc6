import EcmaModules.Syntax.Identifier
import EcmaModules.Syntax.Token

/-!
# Cutting text into tokens

One token is read at a time, because the grammar decides what a slash or a closing brace begins:
`Lexeme.first` reads a token in the usual sense, `Lexeme.asRegex` reads the same place again as a
regular expression, and `Lexeme.asTemplateTail` as the continuation of a template.

Reading never fails: text that is no token becomes `Token.invalid`, which no rule of the grammar
accepts. So a token that is looked at, and then read again in the other sense, does no harm.
-/

namespace EcmaModules.Syntax

/-! ## Blanks and comments -/

/-- A character that ends a line. -/
def isLineEnd (c : Char) : Bool :=
  c == '\n' || c == '\r' || c.toNat == 0x2028 || c.toNat == 0x2029

/-- A blank that does not end a line. Next line U+0085 and the zero width space U+200B count. -/
def isBlank (c : Char) : Bool :=
  let n := c.toNat
  n == 0x20 || n == 0x09 || n == 0x0b || n == 0x0c || n == 0x85 || n == 0xa0 || n == 0xfeff
    || n == 0x1680 || (0x2000 ≤ n && n ≤ 0x200b) || n == 0x202f || n == 0x205f || n == 0x3000

/-- Where in the space between two tokens the reader is. -/
inductive Gap where
  | between | lineComment | blockComment
deriving Repr, DecidableEq

/-- Skips blanks and comments. Gives back whether a line ended on the way, and the text from the
next token on; nothing if a comment is not closed. -/
def skipGap : Gap → Bool → List Char → Option (Bool × List Char)
  | .between, newline, '/' :: '/' :: r => skipGap .lineComment newline r
  | .between, newline, '/' :: '*' :: r => skipGap .blockComment newline r
  | .between, newline, c :: r =>
    if isLineEnd c then skipGap .between true r
    else if isBlank c then skipGap .between newline r
    else some (newline, c :: r)
  | .lineComment, newline, c :: r =>
    if isLineEnd c then skipGap .between true r else skipGap .lineComment newline r
  | .blockComment, newline, '*' :: '/' :: r => skipGap .between newline r
  | .blockComment, newline, c :: r => skipGap .blockComment (newline || isLineEnd c) r
  | .blockComment, _, [] => none
  | _, newline, [] => some (newline, [])

/-! ## Escape sequences -/

/-- The value of a hexadecimal digit. -/
def hexDigit? (c : Char) : Option Nat :=
  if c.isDigit then some (c.toNat - '0'.toNat)
  else if 'a' ≤ c ∧ c ≤ 'f' then some (c.toNat - 'a'.toNat + 10)
  else if 'A' ≤ c ∧ c ≤ 'F' then some (c.toNat - 'A'.toNat + 10)
  else none

/-- Reads `count` hexadecimal digits. -/
def hexDigits? : Nat → Nat → List Char → Option (Nat × List Char)
  | 0, value, r => some (value, r)
  | _ + 1, _, [] => none
  | count + 1, value, c :: r =>
    match hexDigit? c with
    | some d => hexDigits? count (16 * value + d) r
    | none => none

/-- Reads hexadecimal digits up to a closing brace, at least one of them. -/
def bracedHex? (value : Option Nat) : List Char → Option (Nat × List Char)
  | [] => none
  | c :: r =>
    if c == '}' then value.bind fun v ↦ if v ≤ 0x10ffff then some (v, r) else none
    else match hexDigit? c with
      | some d => bracedHex? (some (16 * value.getD 0 + d)) r
      | none => none

/-- Reads what follows `\u`: four digits, or a code point in braces. Halves of surrogate pairs are
code points here. -/
def codePoint? : List Char → Option (Nat × List Char)
  | '{' :: r => bracedHex? none r
  | r => hexDigits? 4 0 r

/-! ## Words -/

/-- Reads one character of an identifier, plain or escaped. -/
def identifierChar? (accepts : Char → Bool) : List Char → Option (Char × Bool × List Char)
  | '\\' :: 'u' :: r =>
    match codePoint? r with
    | some (n, r) =>
      let c := Char.ofNat n
      if n.isValidChar && accepts c then some (c, true, r) else none
    | none => none
  | c :: r => if accepts c then some (c, false, r) else none
  | [] => none

/-- Reads the characters of an identifier after the first one. -/
def identifierRest : Nat → List Char → Bool → List Char → List Char × Bool × List Char
  | 0, name, escaped, r => (name.reverse, escaped, r)
  | fuel + 1, name, escaped, r =>
    match identifierChar? isIdentifierPart r with
    | some (c, e, r) => identifierRest fuel (c :: name) (escaped || e) r
    | none => (name.reverse, escaped, r)

/-- Reads an identifier: its name, whether it has an escape sequence, and the text after it. -/
def identifier? (r : List Char) : Option (String × Bool × List Char) :=
  match identifierChar? isIdentifierStart r with
  | some (c, e, r) =>
    let (name, escaped, r) := identifierRest r.length [c] e r
    some (String.ofList name, escaped, r)
  | none => none

/-! ## Numbers -/

/-- Skips digits, a separator being allowed between two of them. Nothing if a separator stands
anywhere else. -/
def skipDigits (accepts : Char → Bool) : List Char → Option (List Char)
  | '_' :: c :: r => if accepts c then skipDigits accepts r else none
  | '_' :: [] => none
  | c :: r => if accepts c then skipDigits accepts r else some (c :: r)
  | [] => some []

/-- Skips at least one digit. -/
def skipSomeDigits (accepts : Char → Bool) : List Char → Option (List Char)
  | c :: r => if accepts c then skipDigits accepts r else none
  | [] => none

/-- Skips the exponent of a decimal number, if there is one. -/
def skipExponent : List Char → Option (List Char)
  | c :: r =>
    if c == 'e' || c == 'E' then
      match r with
      | '+' :: r => skipSomeDigits Char.isDigit r
      | '-' :: r => skipSomeDigits Char.isDigit r
      | r => skipSomeDigits Char.isDigit r
    else some (c :: r)
  | [] => some []

/-- Skips the fraction and the exponent of a decimal number, if there are any. -/
def skipFraction : List Char → Option (List Char)
  | '.' :: c :: r =>
    if c.isDigit then (skipDigits Char.isDigit r).bind skipExponent
    else if c == '_' then none
    else skipExponent (c :: r)
  | '.' :: [] => some []
  | r => skipExponent r

/-- Skips the suffix of a big integer, or the fraction and the exponent of a number. -/
def skipBigOrFraction : List Char → Option (List Char)
  | 'n' :: r => some r
  | r => skipFraction r

/-- Skips a big integer's suffix, if there is one. -/
def skipBig : List Char → List Char
  | 'n' :: r => r
  | r => r

/-- The digits of a number written in base two, eight or sixteen. -/
def radixDigit? (c : Char) : Option (Char → Bool) :=
  if c == 'x' || c == 'X' then some fun d ↦ (hexDigit? d).isSome
  else if c == 'o' || c == 'O' then some fun d ↦ '0' ≤ d && d ≤ '7'
  else if c == 'b' || c == 'B' then some fun d ↦ d == '0' || d == '1'
  else none

/-- Skips a number. A zero in front of further digits begins an octal number, which has no fraction,
or a decimal one if there is an eight or a nine among them. -/
def skipNumber : List Char → Option (List Char)
  | '0' :: c :: r =>
    match radixDigit? c with
    | some accepts => (skipSomeDigits accepts r).map skipBig
    | none =>
      if c == '_' then none
      else if c.isDigit then
        let digits := (c :: r).takeWhile Char.isDigit
        let after := (c :: r).dropWhile Char.isDigit
        if digits.any fun d ↦ d == '8' || d == '9' then skipFraction after else some after
      else skipBigOrFraction (c :: r)
  | '.' :: r => (skipSomeDigits Char.isDigit r).bind skipExponent
  | r => (skipSomeDigits Char.isDigit r).bind skipBigOrFraction

/-- A number must not run into an identifier or a further digit. -/
def endsNumber : List Char → Bool
  | c :: _ => !(isIdentifierPart c || c == '\\')
  | [] => true

/-! ## Strings -/

/-- Reads up to `count` octal digits. -/
def octalDigits : Nat → Nat → List Char → Nat × List Char
  | 0, value, r => (value, r)
  | _ + 1, value, [] => (value, [])
  | count + 1, value, c :: r =>
    if '0' ≤ c && c ≤ '7' then octalDigits count (8 * value + (c.toNat - '0'.toNat)) r
    else (value, c :: r)

/-- Reads what follows a backslash in a string: the code points it stands for, none of them for a
line that goes on. -/
def escapeSequence? : List Char → Option (List Nat × List Char)
  | '\r' :: '\n' :: r => some ([], r)
  | 'n' :: r => some ([10], r)
  | 't' :: r => some ([9], r)
  | 'r' :: r => some ([13], r)
  | 'b' :: r => some ([8], r)
  | 'v' :: r => some ([11], r)
  | 'f' :: r => some ([12], r)
  | 'x' :: r => (hexDigits? 2 0 r).map fun (n, r) ↦ ([n], r)
  | 'u' :: r => (codePoint? r).map fun (n, r) ↦ ([n], r)
  | c :: r =>
    if isLineEnd c then some ([], r)
    else if '0' ≤ c && c ≤ '3' then
      let (n, r) := octalDigits 3 0 (c :: r)
      some ([n], r)
    else if '4' ≤ c && c ≤ '7' then
      let (n, r) := octalDigits 2 0 (c :: r)
      some ([n], r)
    else some ([c.toNat], r)
  | [] => none

/-- Reads a string up to its closing quotation mark: its code points and the text after it. -/
def stringBody? (quote : Char) : Nat → List Nat → List Char → Option (List Nat × List Char)
  | 0, _, _ => none
  | _ + 1, _, [] => none
  | fuel + 1, units, c :: r =>
    if c == quote then some (units.reverse, r)
    else if c == '\n' || c == '\r' then none
    else if c == '\\' then
      match escapeSequence? r with
      | some (ns, r) => stringBody? quote fuel (ns.reverse ++ units) r
      | none => none
    else stringBody? quote fuel (c.toNat :: units) r

/-- The first half of a surrogate pair. -/
def isHighSurrogate (n : Nat) : Bool := 0xd800 ≤ n && n < 0xdc00

/-- The second half of a surrogate pair. -/
def isLowSurrogate (n : Nat) : Bool := 0xdc00 ≤ n && n < 0xe000

/-- Joins the halves of surrogate pairs that were written as two escape sequences. -/
def joinSurrogates : List Nat → List Nat
  | a :: b :: r =>
    if isHighSurrogate a && isLowSurrogate b then
      (0x10000 + (a - 0xd800) * 0x400 + (b - 0xdc00)) :: joinSurrogates r
    else a :: joinSurrogates (b :: r)
  | r => r

/-- The four lowercase hexadecimal digits of a code unit. -/
def unitDigits (n : Nat) : List Char :=
  let digits := Nat.toDigits 16 n
  List.replicate (4 - digits.length) '0' ++ digits

/-- The value of a string from its code points, and whether it has half of a surrogate pair. Text
cannot hold such a half: it is written as U+FFFD followed by its four digits, and then U+FFFD itself
is written the same way. -/
def stringValue (units : List Nat) : String × Bool :=
  let points := joinSurrogates units
  let lone := points.any fun n ↦ isHighSurrogate n || isLowSurrogate n
  let written (n : Nat) : List Char :=
    if lone && (isHighSurrogate n || isLowSurrogate n || n == 0xfffd) then
      Char.ofNat 0xfffd :: unitDigits n
    else [Char.ofNat n]
  (String.ofList (points.flatMap written), lone)

/-! ## Templates and regular expressions -/

/-- What follows a backslash in a template is an escape sequence. Octal ones are not. -/
def isTemplateEscape : List Char → Bool
  | 'x' :: r => (hexDigits? 2 0 r).isSome
  | 'u' :: r => (codePoint? r).isSome
  | '0' :: c :: _ => !c.isDigit
  | c :: _ => c == '0' || !c.isDigit
  | [] => false

/-- Skips a piece of a template: up to the closing backquote, or to the `${` of an expression. -/
def templateBody (valid : Bool) : List Char → Option (Token × List Char)
  | '\\' :: c :: r => templateBody (valid && isTemplateEscape (c :: r)) r
  | '$' :: '{' :: r => some (.template false valid, r)
  | c :: r => if c == '`' then some (.template true valid, r) else templateBody valid r
  | [] => none

/-- Skips the body of a regular expression. A slash in a class of characters does not end it. -/
def regexBody (inClass : Bool) : List Char → Option (List Char)
  | '\\' :: c :: r => if isLineEnd c then none else regexBody inClass r
  | c :: r =>
    if isLineEnd c then none
    else if c == '/' && !inClass then some r
    else regexBody (if c == '[' then true else if c == ']' then false else inClass) r
  | [] => none

/-- The flags of a regular expression: known letters, none of them twice, and of `u` and `v` only
one. -/
def areFlags (flags : List Char) : Bool :=
  flags.all ("dgimsuvy".toList.contains ·) && decide flags.Nodup
    && !(flags.contains 'u' && flags.contains 'v')

/-! ## Punctuators -/

/-- Reads the longest punctuator. -/
def punct? : List Char → Option (Punct × List Char)
  | '{' :: r => some (.lbrace, r)
  | '}' :: r => some (.rbrace, r)
  | '(' :: r => some (.lparen, r)
  | ')' :: r => some (.rparen, r)
  | '[' :: r => some (.lbracket, r)
  | ']' :: r => some (.rbracket, r)
  | ';' :: r => some (.semicolon, r)
  | ',' :: r => some (.comma, r)
  | ':' :: r => some (.colon, r)
  | '~' :: r => some (.tilde, r)
  | '@' :: r => some (.at, r)
  | '.' :: '.' :: '.' :: r => some (.ellipsis, r)
  | '.' :: r => some (.dot, r)
  | '?' :: '?' :: '=' :: r => some (.questionQuestionAssign, r)
  | '?' :: '?' :: r => some (.questionQuestion, r)
  | '?' :: '.' :: c :: r =>
    if c.isDigit then some (.question, '.' :: c :: r) else some (.questionDot, c :: r)
  | '?' :: '.' :: [] => some (.questionDot, [])
  | '?' :: r => some (.question, r)
  | '=' :: '=' :: '=' :: r => some (.eqEqEq, r)
  | '=' :: '=' :: r => some (.eqEq, r)
  | '=' :: '>' :: r => some (.arrow, r)
  | '=' :: r => some (.assign, r)
  | '!' :: '=' :: '=' :: r => some (.notEqEq, r)
  | '!' :: '=' :: r => some (.notEq, r)
  | '!' :: r => some (.bang, r)
  | '+' :: '+' :: r => some (.plusPlus, r)
  | '+' :: '=' :: r => some (.plusAssign, r)
  | '+' :: r => some (.plus, r)
  | '-' :: '-' :: r => some (.minusMinus, r)
  | '-' :: '=' :: r => some (.minusAssign, r)
  | '-' :: r => some (.minus, r)
  | '*' :: '*' :: '=' :: r => some (.starStarAssign, r)
  | '*' :: '*' :: r => some (.starStar, r)
  | '*' :: '=' :: r => some (.starAssign, r)
  | '*' :: r => some (.star, r)
  | '/' :: '=' :: r => some (.slashAssign, r)
  | '/' :: r => some (.slash, r)
  | '%' :: '=' :: r => some (.percentAssign, r)
  | '%' :: r => some (.percent, r)
  | '<' :: '<' :: '=' :: r => some (.shiftLeftAssign, r)
  | '<' :: '<' :: r => some (.shiftLeft, r)
  | '<' :: '=' :: r => some (.lessEq, r)
  | '<' :: r => some (.less, r)
  | '>' :: '>' :: '>' :: '=' :: r => some (.shiftRightZeroAssign, r)
  | '>' :: '>' :: '>' :: r => some (.shiftRightZero, r)
  | '>' :: '>' :: '=' :: r => some (.shiftRightAssign, r)
  | '>' :: '>' :: r => some (.shiftRight, r)
  | '>' :: '=' :: r => some (.greaterEq, r)
  | '>' :: r => some (.greater, r)
  | '&' :: '&' :: '=' :: r => some (.ampAmpAssign, r)
  | '&' :: '&' :: r => some (.ampAmp, r)
  | '&' :: '=' :: r => some (.ampAssign, r)
  | '&' :: r => some (.amp, r)
  | '|' :: '|' :: '=' :: r => some (.barBarAssign, r)
  | '|' :: '|' :: r => some (.barBar, r)
  | '|' :: '=' :: r => some (.barAssign, r)
  | '|' :: r => some (.bar, r)
  | '^' :: '=' :: r => some (.caretAssign, r)
  | '^' :: r => some (.caret, r)
  | _ => none

/-! ## Tokens -/

/-- A number begins here. -/
def startsNumber : List Char → Bool
  | '.' :: c :: _ => c.isDigit
  | c :: _ => c.isDigit
  | [] => false

/-- Reads the token that begins with the first character. -/
def readToken (text : List Char) : Token × List Char :=
  match text with
  | [] => (.eof, [])
  | c :: r =>
    if c == '"' || c.toNat == 0x27 then
      match stringBody? c text.length [] r with
      | some (units, r) => let (value, lone) := stringValue units; (.string value lone, r)
      | none => (.invalid, [])
    else if c == '`' then (templateBody true r).getD (.invalid, [])
    else if c == '#' then
      match identifier? r with
      | some (name, _, r) => (.privateName name, r)
      | none => (.invalid, [])
    else if startsNumber text then
      match skipNumber text with
      | some r => if endsNumber r then (.number, r) else (.invalid, [])
      | none => (.invalid, [])
    else match identifier? text with
      | some (name, escaped, r) => (.word name escaped, r)
      | none =>
        match punct? text with
        | some (p, r) => (.punct p, r)
        | none => (.invalid, [])

namespace Lexeme

/-- Reads the next token of the text. -/
def first (text : List Char) : Lexeme :=
  match skipGap .between false text with
  | some (newline, start) =>
    let (t, rest) := readToken start
    ⟨t, newline, start, rest⟩
  | none => ⟨.invalid, false, [], []⟩

/-- Reads the first token of a whole text, after a line `#!…`. -/
def ofText : List Char → Lexeme
  | '#' :: '!' :: r => first (r.dropWhile fun c ↦ !isLineEnd c)
  | text => first text

/-- Reads the token again as a regular expression; it begins with a slash. -/
def asRegex (l : Lexeme) : Lexeme :=
  match regexBody false (l.start.drop 1) with
  | some r =>
    let flags := r.takeWhile isIdentifierPart
    let rest := r.dropWhile isIdentifierPart
    if areFlags flags && rest.head? != some '\\' then { l with token := .regex, rest := rest }
    else { l with token := .invalid, rest := [] }
  | none => { l with token := .invalid, rest := [] }

/-- Reads the token again as the continuation of a template; it begins with a closing brace. -/
def asTemplateTail (l : Lexeme) : Lexeme :=
  match templateBody true (l.start.drop 1) with
  | some (t, rest) => { l with token := t, rest := rest }
  | none => { l with token := .invalid, rest := [] }

end Lexeme

end EcmaModules.Syntax
