/-!
# Decimal text of a double

The text of a number is the shortest decimal that reads back as the same double, written
positionally: there is never an exponent, and an integral value has no decimal point.

A positive double is `mantissa * 2 ^ exponent`. The reals that round to it form an interval whose
ends belong to it exactly when the mantissa is even. For one digit, two digits, … up to seventeen
the two neighbours of the value on that decimal grid are tested in exact arithmetic; the first grid
with a hit wins, of two hits the nearer one, and an exact tie goes up.
-/

namespace EcmaModules.Decimal

/-- A decimal: `coefficient * 10 ^ exponent`. -/
structure Digits where
  coefficient : Nat
  exponent : Int
deriving Repr, DecidableEq

/-- A positive rational with the interval that rounds to it, over one denominator. -/
structure Interval where
  low : Nat
  value : Nat
  high : Nat
  denominator : Nat
  /-- The ends belong to the interval. -/
  closed : Bool
deriving Repr, DecidableEq

/-- A power of two. -/
def twoPow (n : Nat) : Nat := Nat.pow 2 n

/-- A power of ten. -/
def tenPow (n : Nat) : Nat := Nat.pow 10 n

/-- The interval of the double with the given exponent and fraction fields. Quarters of a unit in
the last place are counted, because the gap below a power of two is half as wide as the one
above. -/
def Interval.ofFields (exponentField fraction : Nat) : Interval :=
  let mantissa := if exponentField = 0 then fraction else fraction + twoPow 52
  let below := if fraction = 0 && 1 < exponentField then 1 else 2
  -- the value is `4 * mantissa * 2 ^ (field - 1077)`
  let field := max exponentField 1
  let scale := twoPow (field - 1077)
  { low := (4 * mantissa - below) * scale
    value := 4 * mantissa * scale
    high := (4 * mantissa + 2) * scale
    denominator := twoPow (1077 - field)
    closed := mantissa % 2 = 0 }

/-- Multiplies the interval by `10 ^ (-k)`. -/
def Interval.scaleDown (i : Interval) (k : Int) : Interval :=
  if 0 ≤ k then { i with denominator := i.denominator * tenPow k.toNat }
  else
    let f := tenPow (-k).toNat
    { i with low := i.low * f, value := i.value * f, high := i.high * f }

/-- The integer `n` lies in the interval. -/
def Interval.contains (i : Interval) (n : Nat) : Bool :=
  let x := n * i.denominator
  if i.closed then i.low ≤ x && x ≤ i.high else i.low < x && x < i.high

/-- The integer of the interval nearest to its value, among the two neighbours of the value. -/
def Interval.nearest? (i : Interval) : Option Nat :=
  let down := i.value / i.denominator
  let up := down + 1
  match i.contains down, i.contains up with
  | false, false => none
  | true, false => some down
  | false, true => some up
  | true, true =>
    if i.value - down * i.denominator < up * i.denominator - i.value then some down else some up

/-- The least `j` with `1 ≤ value * 10 ^ j`, counted from `j` upward. -/
def leadingZeros (value denominator : Nat) : Nat → Nat → Nat
  | 0, j => j
  | fuel + 1, j =>
    if denominator ≤ value then j else leadingZeros (value * 10) denominator fuel (j + 1)

/-- The number of digits in front of the decimal point; zero or negative below one tenth. -/
def Interval.magnitude (i : Interval) : Int :=
  if i.denominator ≤ i.value then (Nat.toDigits 10 (i.value / i.denominator)).length
  else 1 - (leadingZeros i.value i.denominator 400 0 : Int)

/-- The shortest decimal of the interval, searched from `digits` digits on. -/
def Interval.shortestFrom (i : Interval) (digits : Nat) : Nat → Digits
  | 0 => ⟨0, 0⟩
  | fuel + 1 =>
    let k := i.magnitude - digits
    match (i.scaleDown k).nearest? with
    | some n => ⟨n, k⟩
    | none => i.shortestFrom (digits + 1) fuel

/-- The shortest decimal of the interval. Seventeen digits tell all doubles apart. -/
def Interval.shortest (i : Interval) : Digits :=
  i.shortestFrom 1 17

/-- Drops the zeros at the end of a fraction. -/
def Digits.trim (d : Digits) : Nat → Digits
  | 0 => d
  | fuel + 1 =>
    if d.exponent < 0 && d.coefficient % 10 = 0 then
      Digits.trim ⟨d.coefficient / 10, d.exponent + 1⟩ fuel
    else d

/-- Positional text of a decimal. -/
def Digits.positional (d : Digits) : List Char :=
  let digits := Nat.toDigits 10 d.coefficient
  let point := (digits.length : Int) + d.exponent
  if 0 ≤ d.exponent then digits ++ List.replicate d.exponent.toNat '0'
  else if point ≤ 0 then '0' :: '.' :: List.replicate (-point).toNat '0' ++ digits
  else digits.take point.toNat ++ '.' :: digits.drop point.toNat

/-- The text of the double with the given bits. -/
def ofBits (bits : UInt64) : String :=
  let n := bits.toNat
  let negative := n / twoPow 63 = 1
  let exponentField := n / twoPow 52 % twoPow 11
  let fraction := n % twoPow 52
  let sign := if negative then ['-'] else []
  if exponentField = 2047 then
    if fraction = 0 then String.ofList (sign ++ ['i', 'n', 'f']) else "NaN"
  else if exponentField = 0 && fraction = 0 then String.ofList (sign ++ ['0'])
  else
    let d := (Interval.ofFields exponentField fraction).shortest
    String.ofList (sign ++ (d.trim 17).positional)

/-- The text of a number. -/
def text (x : Float) : String :=
  ofBits x.toBits

end EcmaModules.Decimal
