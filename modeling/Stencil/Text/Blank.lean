-- SUMMARY: Blank characters, and texts without the blanks at their ends.

/-! # Blanks

Blank is what separates words in any script: the characters of Unicode's bidirectional classes WS,
B and S together with its space separators. Besides the ASCII blanks these are the four information
separators, the next-line control and the spaces of general categories Zs, Zl and Zp.
-/

namespace Stencil.Text

def isBlank (c : Char) : Bool :=
  let n := c.toNat
  n == 0x20 || (0x09 ≤ n && n ≤ 0x0D) || (0x1C ≤ n && n ≤ 0x1F) || n == 0x85 || n == 0xA0 ||
    n == 0x1680 || (0x2000 ≤ n && n ≤ 0x200A) || n == 0x2028 || n == 0x2029 || n == 0x202F ||
    n == 0x205F || n == 0x3000

/-- The text without the blanks at its end. -/
def trimEnd (s : List Char) : List Char :=
  (s.reverse.dropWhile isBlank).reverse

/-- The text without the blanks at its two ends. -/
def trim (s : List Char) : List Char :=
  trimEnd (s.dropWhile isBlank)

end Stencil.Text
