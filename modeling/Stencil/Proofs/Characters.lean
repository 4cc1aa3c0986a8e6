-- SUMMARY: Which characters names, blanks and tags are made of, and that these do not overlap.
import Stencil.Proofs.Grammar

/-! # Characters

The grammar is read without backtracking because the characters that start its parts differ: no
name character is blank, and neither kind is one of the marks that tags are made of.
-/

namespace Stencil

open Text (isBlank isWord)
open Name (isNameChar)

/-- The code points of the blanks. -/
private def blankCodes : List Nat :=
  [0x20, 0x09, 0x0A, 0x0B, 0x0C, 0x0D, 0x1C, 0x1D, 0x1E, 0x1F, 0x85, 0xA0, 0x1680, 0x2000, 0x2001,
    0x2002, 0x2003, 0x2004, 0x2005, 0x2006, 0x2007, 0x2008, 0x2009, 0x200A, 0x2028, 0x2029, 0x202F,
    0x205F, 0x3000]

private theorem toNat_mem_blankCodes {c : Char} (h : isBlank c = true) :
    c.toNat ∈ blankCodes := by
  simp only [isBlank, Bool.or_eq_true, Bool.and_eq_true, beq_iff_eq, decide_eq_true_eq] at h
  simp only [blankCodes, List.mem_cons, List.not_mem_nil]
  omega

private theorem blankCodes_no_letter :
    ∀ n ∈ blankCodes, (if n < 0x2E80 then Text.lettersAlphabetic.holds n
      else if n < 0x10000 then Text.lettersIdeographic.holds n
      else Text.lettersSupplementary.holds n) = false := by
  decide +kernel

theorem isWord_of_isBlank {c : Char} (h : isBlank c = true) : isWord c = false := by
  have hmem := toNat_mem_blankCodes h
  have hl := blankCodes_no_letter _ hmem
  have hu : (c == '_') = false := by
    rw [beq_eq_false_iff_ne]
    rintro rfl
    exact absurd h (by decide)
  simp only [isWord, hu, Bool.false_or]
  exact hl

/-- No blank is a name character. -/
theorem isNameChar_of_isBlank {c : Char} (h : isBlank c = true) : isNameChar c = false := by
  have hw := isWord_of_isBlank h
  simp only [isNameChar, hw, Bool.false_or, Bool.or_eq_false_iff, beq_eq_false_iff_ne]
  refine ⟨⟨⟨⟨⟨?_, ?_⟩, ?_⟩, ?_⟩, ?_⟩, ?_⟩ <;>
    · rintro rfl
      exact absurd h (by decide)

theorem isBlank_of_isNameChar {c : Char} (h : isNameChar c = true) : isBlank c = false := by
  cases hb : isBlank c with
  | false => rfl
  | true => rw [isNameChar_of_isBlank hb] at h; cases h

end Stencil
