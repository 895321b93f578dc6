/-!
# Order by UTF-16 code units

Property names are sorted by their UTF-16 code units, not by code points. The two orders differ
only where a character outside the basic plane, written as a pair of surrogates from `0xd800`
upward, meets one between `0xe000` and `0xffff`.
-/

namespace EcmaModules.Text

/-- The UTF-16 code units of a character. -/
def charUnits (c : Char) : List Nat :=
  let n := c.toNat
  if n < 0x10000 then [n]
  else [0xd800 + (n - 0x10000) / 0x400, 0xdc00 + (n - 0x10000) % 0x400]

/-- The UTF-16 code units of a text. -/
def units (s : String) : List Nat :=
  s.toList.flatMap charUnits

/-- The order of two texts by their code units, the first difference deciding. -/
def compare (a b : String) : Ordering :=
  Ord.compare (units a) (units b)

end EcmaModules.Text
