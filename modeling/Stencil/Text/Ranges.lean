-- SUMMARY: Sets of characters given by ranges of code points.

/-! # Ranges of characters

A class of characters that a standard lists is kept as the increasing list of its maximal ranges
of code points, both ends included.
-/

namespace Stencil.Text

/-- Disjoint ranges of code points in increasing order, each with its first and its last member. -/
abbrev CharRanges := List (Nat × Nat)

/-- Whether a code point lies in one of the ranges. The search ends at the first range that starts
    beyond the code point. -/
def CharRanges.holds : CharRanges → Nat → Bool
  | [], _ => false
  | (first, last) :: ranges, n =>
    if n < first then false else n ≤ last || CharRanges.holds ranges n

def CharRanges.contains (ranges : CharRanges) (c : Char) : Bool :=
  ranges.holds c.toNat

end Stencil.Text
