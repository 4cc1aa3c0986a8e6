-- SUMMARY: The shortest decimal text of a floating-point number.
import Stencil.Number.Binary

/-! # Decimal text

A floating-point number is written with the fewest digits that read back as the same number, and
among those with the digits nearest to it. The digits come from exact arithmetic: the numbers that
read back as `x` form an interval around `x`, whose ends belong to it if the mantissa of `x` is
even, and the coarsest decimal grid with a point in that interval gives the digits. If a grid has a
point there, then so has one of the two grid points next to `x`.
-/

namespace Stencil

structure Decimal where
  digits : Nat
  exponent : Int

namespace Binary

/-- The grid of the multiples of `10 ^ k`, tried at a number: the nearest grid point that reads back
    as the number, if there is one. Everything is counted in quarters of the last binary place. -/
def onGrid? (b : Binary) (k : Int) : Option Decimal :=
  let q := b.exponent - 2
  let scale := Nat.pow 2 q.toNat * Nat.pow 10 (-k).toNat
  let grid := Nat.pow 2 (-q).toNat * Nat.pow 10 k.toNat
  let value := 4 * b.mantissa * scale
  let low := (4 * b.mantissa - if b.atStep then 1 else 2) * scale
  let high := (4 * b.mantissa + 2) * scale
  let readsBack (d : Nat) : Bool :=
    if b.mantissa % 2 = 0 then low ≤ d * grid && d * grid ≤ high
    else low < d * grid && d * grid < high
  let below := value / grid
  let distances := (value - below * grid, (below + 1) * grid - value)
  match readsBack below, readsBack (below + 1) with
  | false, false => none
  | true, false => some ⟨below, k⟩
  | false, true => some ⟨below + 1, k⟩
  | true, true =>
    if distances.1 < distances.2 || (distances.1 = distances.2 && below % 2 = 0) then
      some ⟨below, k⟩
    else some ⟨below + 1, k⟩

/-- The first grid with a hit, from `10 ^ (k + n - 1)` down to `10 ^ k`. -/
def firstOnGrid? (b : Binary) (k : Int) : Nat → Option Decimal
  | 0 => none
  | n + 1 =>
    match b.onGrid? (k + n) with
    | some d => some d
    | none => b.firstOnGrid? k n

/-- The shortest decimal that reads back as the number, for a number other than zero. The finest
    grid that is tried has a point in every interval. -/
def shortest (b : Binary) : Decimal :=
  (b.firstOnGrid? (-326) 640).getD ⟨0, 0⟩

end Binary

/-- How a format lays out the digits of a number. -/
structure RealFormat where
  leastPlain : Int
  greatestPlain : Int
  exponentDigits : Nat
  infinite : String
  undefined : String

/-- Settings are shown without an exponent from `0.0001` up to 16 digits before the point, always
    with a digit after the point, and otherwise with an exponent of at least two digits. -/
def settingFormat : RealFormat :=
  { leastPlain := -4, greatestPlain := 15, exponentDigits := 2, infinite := "inf",
    undefined := "nan" }

namespace RealFormat

private def zeros (n : Int) : List Char := List.replicate n.toNat '0'

/-- The digits of a number with a point or an exponent. -/
def layout (f : RealFormat) (d : Decimal) : List Char :=
  let digits := Nat.toDigits 10 d.digits
  let exponent := d.exponent + digits.length - 1
  if f.leastPlain ≤ exponent ∧ exponent ≤ f.greatestPlain then
    if exponent < 0 then '0' :: '.' :: zeros (-exponent - 1) ++ digits
    else
      let whole := (digits ++ zeros d.exponent).take (exponent.toNat + 1)
      let fraction := digits.drop (exponent.toNat + 1)
      whole ++ '.' :: (if fraction.isEmpty then ['0'] else fraction)
  else
    let fraction := digits.drop 1
    let size := Nat.toDigits 10 exponent.natAbs
    digits.take 1 ++ (if fraction.isEmpty then [] else '.' :: fraction) ++
      'e' :: (if exponent < 0 then '-' else '+') :: zeros (f.exponentDigits - size.length) ++ size

def text (f : RealFormat) (x : Float) : String :=
  match Binary.ofFloat? x with
  | none => if x.isNaN then f.undefined else if x < 0 then "-" ++ f.infinite else f.infinite
  | some b =>
    let d := if b.mantissa = 0 then ⟨0, 0⟩ else b.shortest
    String.ofList ((if b.negative then ['-'] else []) ++ f.layout d)

end RealFormat

example : settingFormat.layout ⟨6, 2⟩ = "600.0".toList := by decide
example : settingFormat.layout ⟨1234, -3⟩ = "1.234".toList := by decide
example : settingFormat.layout ⟨1, 15⟩ = "1000000000000000.0".toList := by decide
example : settingFormat.layout ⟨12, 15⟩ = "1.2e+16".toList := by decide
example : settingFormat.layout ⟨1, -4⟩ = "0.0001".toList := by decide
example : settingFormat.layout ⟨1, -5⟩ = "1e-05".toList := by decide
example : settingFormat.layout ⟨0, 0⟩ = "0.0".toList := by decide

end Stencil
