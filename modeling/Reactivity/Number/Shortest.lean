import Reactivity.Number.Basic

namespace Reactivity.Number

/-- The decimals that read back as a number, as a range of multiples of a unit fraction. -/
structure Neighbourhood where
  /-- Four times the significand, brought to the unit. -/
  value : Nat
  /-- Distance down to the middle between the number and the next smaller one. -/
  below : Nat
  /-- Distance up to the middle between the number and the next larger one. -/
  above : Nat
  /-- How many units make one. -/
  unit : Nat
  /-- Whether the ends belong to the range: the middle rounds to the even significand. -/
  closed : Bool

def neighbourhood (x : Number) : Neighbourhood :=
  let m := x.significand
  let up := Nat.pow 2 x.scale.toNat
  { value := 4 * m * up
    below := if m = Nat.pow 2 52 ∧ -1074 < x.scale then up else 2 * up
    above := 2 * up
    unit := 4 * Nat.pow 2 (-x.scale).toNat
    closed := m % 2 == 0 }

def Neighbourhood.contains (r : Neighbourhood) (digits : Nat) (exponent : Int) : Bool :=
  let point := digits * Nat.pow 10 exponent.toNat * r.unit
  let ten := Nat.pow 10 (-exponent).toNat
  let low := (r.value - r.below) * ten
  let high := (r.value + r.above) * ten
  if r.closed then low ≤ point && point ≤ high else low < point && point < high

/-- Which of two neighbours on a grid stands for a value in the middle between them. -/
inductive Tie where
  /-- The one whose last digit is even. -/
  | even
  /-- The one that is farther from zero. -/
  | away

/-- Whether the smaller of the two neighbours is the one that is taken. -/
def Tie.takesLower (lower : Nat) : Tie → Bool
  | .even => lower % 2 == 0
  | .away => false

/-- The digits in the range on the grid of ten to the exponent. The two neighbours of the value
are tried; of two hits the nearer is taken. -/
def Neighbourhood.digitsAt (r : Neighbourhood) (tie : Tie) (exponent : Int) : Option Nat :=
  let ten := Nat.pow 10 (-exponent).toNat
  let grid := Nat.pow 10 exponent.toNat * r.unit
  let lower := r.value * ten / grid
  let rest := r.value * ten % grid
  match r.contains lower exponent, r.contains (lower + 1) exponent with
  | false, false => none
  | true, false => some lower
  | false, true => some (lower + 1)
  | true, true =>
    if 2 * rest < grid ∨ (2 * rest = grid ∧ tie.takesLower lower) then some lower
    else some (lower + 1)

/-- The digits on the coarsest grid that has any, from the given exponent down. -/
def Neighbourhood.search (r : Neighbourhood) (tie : Tie) : Nat → Int → Nat × Int
  | 0, exponent => (r.value * Nat.pow 10 (-exponent).toNat / (Nat.pow 10 exponent.toNat * r.unit), exponent)
  | grids + 1, exponent =>
    match r.digitsAt tie exponent with
    | some digits => (digits, exponent)
    | none => r.search tie grids (exponent - 1)

/-- The fewest decimal digits that read back as a positive finite number, and the exponent of
ten of the last of them. Two grids above the first digit, eighteen digits are always enough. -/
def shortest (x : Number) (tie : Tie) : Nat × Int :=
  let magnitude := ((x.significand.log2 : Int) + x.scale) * 30103
  x.neighbourhood.search tie 20 (magnitude / 100000 + 2)

/-- How numbers are laid out as text. -/
structure Layout where
  /-- Which digits are written when two choices are as short and as near. -/
  tie : Tie
  /-- The least exponent of the first digit that is written positionally. -/
  least : Int
  /-- The least exponent above those written positionally. -/
  limit : Int
  /-- Written before a positive exponent. -/
  plus : String
  /-- The text of not-a-number. -/
  nan : String
  /-- The text of infinity. -/
  infinity : String

def Layout.magnitude (l : Layout) (x : Number) : String :=
  let (digits, last) := x.shortest l.tie
  let text := Nat.toDigits 10 digits
  let first := last + text.length - 1
  let zeros (n : Int) : List Char := List.replicate n.toNat '0'
  let chars :=
    if l.least ≤ first ∧ first < l.limit then
      if 0 ≤ last then text ++ zeros last ++ ['.', '0']
      else if 0 ≤ first then
        text.take (first + 1).toNat ++ '.' :: text.drop (first + 1).toNat
      else ['0', '.'] ++ zeros (-first - 1) ++ text
    else
      let fraction := if text.length ≤ 1 then [] else '.' :: text.drop 1
      let mark := if 0 ≤ first then l.plus.toList else ['-']
      text.take 1 ++ fraction ++ 'e' :: mark ++ Nat.toDigits 10 first.natAbs
  String.ofList chars

def Layout.text (l : Layout) (x : Number) : String :=
  if x.isNaN then l.nan
  else
    let magnitude :=
      if !x.isFinite then l.infinity else if x.isZero then "0.0" else l.magnitude x
    if x.isNegative then "-" ++ magnitude else magnitude

end Reactivity.Number
