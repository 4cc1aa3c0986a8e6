-- SUMMARY: Floating-point numbers as exact binary fractions, and their comparison with integers.

/-! # Binary fractions

A finite floating-point number is exactly `m · 2 ^ q` with integers `m` and `q`. Here the two are
read off the bits of the number, so that it can be compared with integers without any rounding.
-/

namespace Stencil

structure Binary where
  negative : Bool
  mantissa : Nat
  exponent : Int
  /-- Whether the next smaller number of the format is only half as far as the next larger one. -/
  atStep : Bool

namespace Binary

def ofFloat? (x : Float) : Option Binary :=
  let bits : Nat := x.toBits.toNat
  let negative := decide (bits ≥ Nat.pow 2 63)
  let biased : Nat := bits / Nat.pow 2 52 % Nat.pow 2 11
  let fraction : Nat := bits % Nat.pow 2 52
  if biased = Nat.pow 2 11 - 1 then none
  else if biased = 0 then
    some { negative, mantissa := fraction, exponent := -1074, atStep := false }
  else
    some
      { negative
        mantissa := fraction + Nat.pow 2 52
        exponent := (biased : Int) - 1075
        atStep := fraction = 0 && biased > 1 }

/-- The greatest integer that is not above the number. -/
def floor (b : Binary) : Int :=
  let m : Int := if b.negative then -b.mantissa else b.mantissa
  if b.exponent ≥ 0 then m * Nat.pow 2 b.exponent.toNat else m / Nat.pow 2 (-b.exponent).toNat

def isInteger (b : Binary) : Bool :=
  b.exponent ≥ 0 || b.mantissa % Nat.pow 2 (-b.exponent).toNat = 0

end Binary

/-- A number as programs write it: an integer, or a floating-point number. -/
inductive Number
  | whole (n : Int)
  | real (x : Float)

namespace Number

def toFloat : Number → Float
  | .whole n => Float.ofInt n
  | .real x => x

/-- Integers have an exact sum; with a floating-point number the sum is one as well. -/
def add : Number → Number → Number
  | .whole a, .whole b => .whole (a + b)
  | a, b => .real (a.toFloat + b.toFloat)

def sub : Number → Number → Number
  | .whole a, .whole b => .whole (a - b)
  | a, b => .real (a.toFloat - b.toFloat)

/-- Numbers are compared by their exact values. Nothing compares with what is not a number. -/
def le : Number → Number → Bool
  | .whole a, .whole b => decide (a ≤ b)
  | .real a, .real b => decide (a ≤ b)
  | .whole a, .real b =>
    match Binary.ofFloat? b with
    | some b => decide (a ≤ b.floor)
    | none => decide (0 ≤ b)
  | .real a, .whole b =>
    match Binary.ofFloat? a with
    | some a => decide (a.floor < b) || (decide (a.floor = b) && a.isInteger)
    | none => decide (a ≤ 0)

instance : Add Number := ⟨add⟩
instance : Sub Number := ⟨sub⟩
instance : LE Number := ⟨fun a b => le a b = true⟩
instance : DecidableLE Number := fun a b => inferInstanceAs (Decidable (le a b = true))

end Number

end Stencil
