import EcmaModules.Text.Printable

/-!
# Quoted text

The written form of a text value: double quotes around the characters, with a backslash form for
those that could not be read back by eye. The quotation mark, the backslash and the four control
characters that have a letter of their own are written with two characters; every other hidden
character is written by its code point in lowercase hexadecimal, `\u{1b}`.
-/

namespace EcmaModules.Text

/-- The letter that stands for a character after a backslash. -/
def escapeLetter? : Char → Option Char
  | '\x00' => some '0'
  | '\t' => some 't'
  | '\r' => some 'r'
  | '\n' => some 'n'
  | '\\' => some '\\'
  | '"' => some '"'
  | _ => none

/-- The written form of one character. -/
def quoteChar (c : Char) : List Char :=
  match escapeLetter? c with
  | some letter => ['\\', letter]
  | none =>
    if isPrintable c then [c]
    else '\\' :: 'u' :: '{' :: Nat.toDigits 16 c.toNat ++ ['}']

/-- The written form of a list of characters, quotation marks included. -/
def quoteChars (cs : List Char) : List Char :=
  '"' :: cs.flatMap quoteChar ++ ['"']

/-- The written form of a text. -/
def quote (s : String) : String :=
  String.ofList (quoteChars s.toList)

end EcmaModules.Text
