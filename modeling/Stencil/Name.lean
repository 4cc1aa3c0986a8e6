-- SUMMARY: The names that tags are made of: their characters and their extent.
import Stencil.Text.Blank
import Stencil.Text.Word

/-! # Names

A name starts with a name character and goes on over name characters and blanks. A blank that
stands before a filter bar, or before the word `in` and another blank, does not belong to it: there
the name ends.
-/

namespace Stencil.Name

open Text (isBlank isWord)

def isNameChar (c : Char) : Bool :=
  isWord c || c == '-' || c == ':' || c == '/' || c == '~' || c == '(' || c == ')'

/-- Whether a name ends at a blank that the given text follows. -/
def endsBefore : List Char → Bool
  | '|' :: _ => true
  | 'i' :: 'n' :: c :: _ => isBlank c
  | _ => false

/-- Goes on reading a name; `read` is what has been read of it, last character first. -/
def splitFrom (read : List Char) : List Char → List Char × List Char
  | [] => (read.reverse, [])
  | c :: s =>
    if isNameChar c || (isBlank c && !endsBefore s) then splitFrom (c :: read) s
    else (read.reverse, c :: s)

/-- The longest name at the start of a text, which may be empty, and what follows it. -/
def split : List Char → List Char × List Char
  | [] => ([], [])
  | c :: s => if isNameChar c then splitFrom [c] s else ([], c :: s)

theorem splitFrom_append (read s : List Char) :
    (splitFrom read s).1 ++ (splitFrom read s).2 = read.reverse ++ s := by
  fun_induction splitFrom read s <;> simp_all

/-- Nothing of the text is lost. -/
theorem split_append (s : List Char) : (split s).1 ++ (split s).2 = s := by
  cases s with
  | nil => rfl
  | cons c s =>
    by_cases h : isNameChar c = true
    · simpa [split, h] using splitFrom_append [c] s
    · simp [split, h]

end Stencil.Name
