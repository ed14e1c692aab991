
namespace Reactivity

/-- A number in the IEEE 754 binary64 format. -/
structure Number where
  bits : UInt64
  deriving DecidableEq, Repr

namespace Number

/-- The exponent field, which is all ones for infinities and not-a-number. -/
def exponentField (x : Number) : Nat :=
  x.bits.toNat / Nat.pow 2 52 % Nat.pow 2 11

def fractionField (x : Number) : Nat :=
  x.bits.toNat % Nat.pow 2 52

def isNegative (x : Number) : Bool :=
  Nat.pow 2 63 ≤ x.bits.toNat

def isFinite (x : Number) : Bool :=
  x.exponentField != 0x7FF

def isNaN (x : Number) : Bool :=
  !x.isFinite && x.fractionField != 0

def isZero (x : Number) : Bool :=
  x.exponentField == 0 && x.fractionField == 0

/-- The magnitude of a finite number is the significand times two to the scale. -/
def significand (x : Number) : Nat :=
  if x.exponentField = 0 then x.fractionField else x.fractionField + Nat.pow 2 52

def scale (x : Number) : Int :=
  if x.exponentField = 0 then -1074 else x.exponentField - 1075

def nan : Number := ⟨0x7FF8000000000000⟩

def canonical (x : Number) : Number :=
  if x.isNaN then nan else x

/-- Whether two numbers are the same value: not-a-number is the same as itself, and the two zeros
are the same. -/
def same (x y : Number) : Bool :=
  x == y || (x.isZero && y.isZero) || (x.isNaN && y.isNaN)

theorem same_refl (x : Number) : x.same x := by
  simp [same]

theorem same_comm (x y : Number) : x.same y = y.same x := by
  simp only [same, Bool.and_comm]
  rw [Bool.beq_comm]

theorem same_trans {x y z : Number} (hxy : x.same y) (hyz : y.same z) : x.same z := by
  by_cases h₁ : x = y
  · exact h₁ ▸ hyz
  by_cases h₂ : y = z
  · exact h₂ ▸ hxy
  simp only [same, Bool.or_eq_true, Bool.and_eq_true, beq_iff_eq, h₁, h₂, false_or] at hxy hyz ⊢
  have hzero : y.isZero → y.isNaN → False := by
    simp only [isZero, isNaN, isFinite, Bool.and_eq_true, beq_iff_eq, bne_iff_ne]
    grind
  grind

/-- The number with the given sign and magnitude, for a significand below two to the 53. -/
def ofScaled (negative : Bool) (significand : Nat) (scale : Int) : Number :=
  let shift := min (52 - significand.log2) (scale + 1074).toNat
  let magnitude := (scale - shift + 1074).toNat * Nat.pow 2 52 + significand * Nat.pow 2 shift
  ⟨UInt64.ofNat (if negative then Nat.pow 2 63 + magnitude else magnitude)⟩

def toFloat (x : Number) : Float :=
  Float.ofBits x.bits

def ofFloat (x : Float) : Number :=
  ⟨x.toBits⟩

def ofInt (n : Int) : Number :=
  ofFloat (Float.ofInt n)

def zero : Number := ⟨0⟩

def infinity : Number := ⟨0x7FF0000000000000⟩

def negate (x : Number) : Number :=
  ⟨x.bits ^^^ 0x8000000000000000⟩

/-- The number nearest to a decimal, which is the digits times ten to the exponent. -/
def ofDecimal (negative : Bool) (digits : Nat) (exponent : Int) : Number :=
  let size := exponent + (Nat.toDigits 10 digits).length
  let magnitude :=
    if digits = 0 ∨ size < -400 then zero
    else if 400 < size then infinity
    else ofFloat (Float.ofScientific digits (exponent < 0) exponent.natAbs)
  if negative then magnitude.negate else magnitude

/-- The largest integer such that it and every smaller one are numbers. -/
def maxSafeInteger : Nat := Nat.pow 2 53 - 1

/-- The number as an integer, if it is one and is not too large for every integer of its size to be
a number. -/
def integer? (x : Number) : Option Int :=
  if !x.isFinite then none
  else
    let unit := Nat.pow 2 x.scale.natAbs
    let magnitude? :=
      if 0 ≤ x.scale then some (x.significand * unit)
      else if x.significand % unit = 0 then some (x.significand / unit)
      else none
    match magnitude? with
    | none => none
    | some n =>
      if n ≤ maxSafeInteger then some (if x.isNegative then -(n : Int) else n) else none

def add (x y : Number) : Number :=
  ofFloat (x.toFloat + y.toFloat)

def sub (x y : Number) : Number :=
  ofFloat (x.toFloat - y.toFloat)

def mul (x y : Number) : Number :=
  ofFloat (x.toFloat * y.toFloat)

/-- The remainder of the division that rounds toward zero; it has the sign of the dividend. -/
def rem (x y : Number) : Number :=
  if x.isNaN || y.isNaN || !x.isFinite || y.isZero then nan
  else if !y.isFinite || x.isZero then x
  else
    let scale := min x.scale y.scale
    let m := x.significand * Nat.pow 2 (x.scale - scale).toNat
    let n := y.significand * Nat.pow 2 (y.scale - scale).toNat
    if m < n then x
    else if m % n = 0 then ofScaled x.isNegative 0 (-1074)
    else ofScaled x.isNegative (m % n) scale

def lt (x y : Number) : Bool :=
  x.toFloat < y.toFloat

/-- The order of two numbers; not-a-number counts as equal to every number. -/
def compare (x y : Number) : Ordering :=
  if x.lt y then .lt else if y.lt x then .gt else .eq

end Number

end Reactivity
