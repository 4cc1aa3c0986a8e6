-- SUMMARY: The kinds of blocks, and the tags that open and close them.
import Stencil.Text.Blank

/-! # Blocks

A block opens with `#{`, its keyword in any case and at least one blank, and closes with `#{/`, its
keyword in lower case and `}`. In any case means that characters with a common simple case mapping
are the same letter: besides the capital these are the dotted capital and the dotless small i, and
the long s.
-/

namespace Stencil

/-- The kinds of blocks: shown if something holds, shown if it does not, shown for each member of a
    collection. -/
inductive BlockKind
  | holds
  | fails
  | each
  deriving DecidableEq, Repr

namespace BlockKind

def keyword : BlockKind → String
  | .holds => "if"
  | .fails => "unless"
  | .each => "each"

def closer (k : BlockKind) : String := "#\x7b/" ++ k.keyword ++ "\x7d"

end BlockKind

/-- Whether a character is the given small letter in some case. -/
def isLetter (letter c : Char) : Bool :=
  c == letter || c == letter.toUpper || (letter == 'i' && (c == '\u0130' || c == '\u0131')) ||
    (letter == 's' && c == '\u017f')

/-- Reads a word in any case: the word as it is written, and what follows it. -/
def readWord : List Char → List Char → Option (List Char × List Char)
  | [], s => some ([], s)
  | _ :: _, [] => none
  | letter :: word, c :: s =>
    if isLetter letter c then (readWord word s).map fun (written, rest) => (c :: written, rest)
    else none

/-- Reads a text as it stands: the text, and what follows it. -/
def readExactly (text s : List Char) : Option (List Char × List Char) :=
  if text.isPrefixOf s then some (text, s.drop text.length) else none

/-- Reads the opening of a block up to the first character of what it is about. -/
def BlockKind.readOpener (k : BlockKind) : List Char → Option (List Char × List Char)
  | '#' :: '{' :: s =>
    match readWord k.keyword.toList s with
    | none => none
    | some (word, rest) =>
      match rest.takeWhile Text.isBlank with
      | [] => none
      | blanks => some ('#' :: '{' :: (word ++ blanks), rest.dropWhile Text.isBlank)
  | _ => none

/-! ## What is read is what is there -/

theorem readWord_append {word s written rest : List Char}
    (h : readWord word s = some (written, rest)) : written ++ rest = s := by
  induction word generalizing s written with
  | nil => simp_all [readWord]
  | cons letter word ih =>
    cases s with
    | nil => simp [readWord] at h
    | cons c s =>
      simp only [readWord] at h
      split at h
      · obtain ⟨⟨w, r⟩, hw, he⟩ := Option.map_eq_some_iff.1 h
        cases he
        simp [ih hw]
      · cases h

theorem BlockKind.closer_toList_ne (k : BlockKind) : k.closer.toList ≠ [] := by
  cases k <;> decide

theorem BlockKind.readOpener_append {k : BlockKind} {s written rest : List Char}
    (h : k.readOpener s = some (written, rest)) : written ≠ [] ∧ written ++ rest = s := by
  unfold BlockKind.readOpener at h
  split at h
  · split at h
    · cases h
    · next hw =>
      split at h
      · cases h
      · cases h
        exact ⟨by simp, by simp [List.takeWhile_append_dropWhile, readWord_append hw]⟩
  · cases h

end Stencil
