-- SUMMARY: The terminals of the template language, how each is read and how messages name it.
import Stencil.Block
import Stencil.Literal
import Stencil.Name

/-! # Terminals

A terminal is a kind of token. `Terminal.read` reads one terminal at the start of a text; which
terminals are tried at a place, and in what order, depends on what has been read before
(`Stencil.Outline.Reading`).
-/

namespace Stencil

/-- The kinds of tokens. -/
inductive Terminal
  | opener (kind : BlockKind)
  | closer (kind : BlockKind)
  | substitution
  | text
  | name
  | index
  | inWord
  | leftBracket
  | rightBracket
  | rightBrace
  | bar
  | dot
  | finish
  deriving DecidableEq, Repr

namespace Terminal

/-- How messages name a terminal that they expect. -/
def description : Terminal → String
  | .opener k => "'#\x7b" ++ k.keyword ++ "'"
  | .closer k => "'" ++ k.closer ++ "'"
  | .substitution => "'#\x7b'"
  | .text => "text"
  | .name => "identifier"
  | .index => "index"
  | .inWord => "'in'"
  | .leftBracket => "'['"
  | .rightBracket => "']'"
  | .rightBrace => "'\x7d'"
  | .bar => "'|'"
  | .dot => "'.'"
  | .finish => "end of template"

private def readChar (c : Char) : List Char → Option (List Char × List Char)
  | [] => none
  | d :: s => if d = c then some ([c], s) else none

/-- The opening of a substitution must not look like the closing of a block. -/
private def readSubstitution : List Char → Option (List Char × List Char)
  | '#' :: '{' :: '/' :: _ => none
  | '#' :: '{' :: s => some (['#', '{'], s)
  | _ => none

/-- The word between a loop variable and its collection needs a blank after it. -/
private def readIn : List Char → Option (List Char × List Char)
  | 'i' :: 'n' :: c :: s => if Text.isBlank c then some (['i', 'n'], c :: s) else none
  | _ => none

/-- A reading that found nothing is none. -/
private def nonempty : List Char × List Char → Option (List Char × List Char)
  | ([], _) => none
  | found => some found

/-- Reads a terminal at the start of a text: what belongs to it, and what follows it. The end of
    the source is not read in this way, since nothing belongs to it. -/
def read : Terminal → List Char → Option (List Char × List Char)
  | .opener k, s => k.readOpener s
  | .closer k, s => readExactly k.closer.toList s
  | .substitution, s => readSubstitution s
  | .text, s => nonempty (Literal.split s)
  | .name, s => nonempty (Name.split s)
  | .index, s => nonempty (s.takeWhile (· ≠ ']'), s.dropWhile (· ≠ ']'))
  | .inWord, s => readIn s
  | .leftBracket, s => readChar '[' s
  | .rightBracket, s => readChar ']' s
  | .rightBrace, s => readChar '}' s
  | .bar, s => readChar '|' s
  | .dot, s => readChar '.' s
  | .finish, _ => none

/-! ## What is read -/

/-- The mark that a terminal consists of, if it is a single one. -/
def mark? : Terminal → Option Char
  | .leftBracket => some '['
  | .rightBracket => some ']'
  | .rightBrace => some '}'
  | .bar => some '|'
  | .dot => some '.'
  | _ => none

private theorem readChar_eq_some_iff {c : Char} {s written rest : List Char} :
    readChar c s = some (written, rest) ↔ written = [c] ∧ s = c :: rest := by
  cases s with
  | nil => simp [readChar]
  | cons d s =>
    simp only [readChar]
    split <;> simp_all [eq_comm]

private theorem nonempty_eq_some_iff {found : List Char × List Char} {written rest : List Char} :
    nonempty found = some (written, rest) ↔ found = (written, rest) ∧ written ≠ [] := by
  unfold nonempty
  split
  · apply iff_of_false (by simp)
    rintro ⟨he, hne⟩
    cases he
    exact hne rfl
  · next hne =>
    simp only [Option.some.injEq, iff_self_and]
    rintro rfl rfl
    exact hne rest rfl

theorem read_mark_iff {t : Terminal} {c : Char} (h : t.mark? = some c)
    {s written rest : List Char} :
    t.read s = some (written, rest) ↔ written = [c] ∧ s = c :: rest := by
  cases t <;> cases h <;> exact readChar_eq_some_iff

theorem read_closer_iff {k : BlockKind} {s written rest : List Char} :
    (closer k).read s = some (written, rest) ↔
      written = k.closer.toList ∧ s = k.closer.toList ++ rest := by
  simp only [read, readExactly]
  split
  · next hp =>
    obtain ⟨t, rfl⟩ := List.isPrefixOf_iff_prefix.1 hp
    simp [eq_comm]
  · next hp =>
    apply iff_of_false (by simp)
    rintro ⟨-, rfl⟩
    exact hp (List.isPrefixOf_iff_prefix.2 (List.prefix_append _ _))

theorem read_substitution_iff {s written rest : List Char} :
    substitution.read s = some (written, rest) ↔
      written = ['#', '{'] ∧ s = '#' :: '{' :: rest ∧ ∀ t, rest ≠ '/' :: t := by
  simp only [read]
  unfold readSubstitution
  split
  · next t =>
    apply iff_of_false (by simp)
    rintro ⟨-, hs, hne⟩
    cases hs
    exact hne t rfl
  · next hne =>
    simp only [Option.some.injEq, Prod.mk.injEq, List.cons.injEq, true_and]
    constructor
    · rintro ⟨rfl, rfl⟩
      exact ⟨rfl, rfl, fun t => hne t⟩
    · rintro ⟨rfl, rfl, -⟩
      exact ⟨rfl, rfl⟩
  · next hne =>
    apply iff_of_false (by simp)
    rintro ⟨-, rfl, -⟩
    exact hne rest rfl

theorem read_text_iff {s written rest : List Char} :
    text.read s = some (written, rest) ↔ Literal.split s = (written, rest) ∧ written ≠ [] :=
  nonempty_eq_some_iff

theorem read_name_iff {s written rest : List Char} :
    name.read s = some (written, rest) ↔ Name.split s = (written, rest) ∧ written ≠ [] :=
  nonempty_eq_some_iff

theorem read_index_iff {s written rest : List Char} :
    index.read s = some (written, rest) ↔
      (s.takeWhile (· ≠ ']'), s.dropWhile (· ≠ ']')) = (written, rest) ∧ written ≠ [] :=
  nonempty_eq_some_iff

theorem read_inWord_iff {s written rest : List Char} :
    inWord.read s = some (written, rest) ↔
      written = ['i', 'n'] ∧ s = 'i' :: 'n' :: rest ∧
        ∃ c t, rest = c :: t ∧ Text.isBlank c = true := by
  simp only [read]
  unfold readIn
  split
  · next c t =>
    split
    · next hc =>
      simp only [Option.some.injEq, Prod.mk.injEq, List.cons.injEq, true_and]
      constructor
      · rintro ⟨rfl, rfl⟩
        exact ⟨rfl, rfl, c, t, rfl, hc⟩
      · rintro ⟨rfl, rfl, -⟩
        exact ⟨rfl, rfl⟩
    · next hc =>
      apply iff_of_false (by simp)
      rintro ⟨-, hs, d, u, rfl, hd⟩
      cases hs
      exact hc hd
  · next hne =>
    apply iff_of_false (by simp)
    rintro ⟨-, rfl, c, t, rfl, -⟩
    exact hne c t rfl

/-- A terminal takes up a beginning of the text that is not empty. -/
theorem read_append {t : Terminal} {s written rest : List Char}
    (h : t.read s = some (written, rest)) : written ≠ [] ∧ written ++ rest = s := by
  cases t with
  | opener k => exact k.readOpener_append h
  | closer k =>
    obtain ⟨rfl, rfl⟩ := read_closer_iff.1 h
    exact ⟨k.closer_toList_ne, rfl⟩
  | substitution =>
    obtain ⟨rfl, rfl, -⟩ := read_substitution_iff.1 h
    exact ⟨by simp, rfl⟩
  | text =>
    obtain ⟨hs, hn⟩ := read_text_iff.1 h
    have := Literal.split_append s
    rw [hs] at this
    exact ⟨hn, this⟩
  | name =>
    obtain ⟨hs, hn⟩ := read_name_iff.1 h
    have := Name.split_append s
    rw [hs] at this
    exact ⟨hn, this⟩
  | index =>
    obtain ⟨hs, hn⟩ := read_index_iff.1 h
    cases hs
    exact ⟨hn, List.takeWhile_append_dropWhile⟩
  | inWord =>
    obtain ⟨rfl, rfl, -⟩ := read_inWord_iff.1 h
    exact ⟨by simp, rfl⟩
  | finish => cases h
  | leftBracket | rightBracket | rightBrace | bar | dot =>
    obtain ⟨rfl, rfl⟩ := (read_mark_iff rfl).1 h
    exact ⟨by simp, rfl⟩

/-- The first of several terminals that can be read. -/
def readFirst : List Terminal → List Char → Option (Terminal × List Char × List Char)
  | [], _ => none
  | t :: ts, s =>
    match t.read s with
    | some (written, rest) => some (t, written, rest)
    | none => readFirst ts s

theorem readFirst_append {ts : List Terminal} {t : Terminal} {s written rest : List Char}
    (h : readFirst ts s = some (t, written, rest)) : written ≠ [] ∧ written ++ rest = s := by
  induction ts with
  | nil => cases h
  | cons t' ts ih =>
    simp only [readFirst] at h
    split at h
    · next hr => cases h; exact read_append hr
    · exact ih h

end Terminal

end Stencil
