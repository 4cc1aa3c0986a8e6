-- SUMMARY: Tokens, and how the next one is found among the terminals that a place admits.
import Stencil.Position
import Stencil.Terminal

/-! # Tokens

Which characters make up the next token depends on the terminals that the place admits: they are
tried in order, and the first that can be read wins. Where none can, a blank is skipped. A token
keeps the blanks skipped before it, so tokens account for every character of the source.
-/

namespace Stencil

structure Token where
  terminal : Terminal
  /-- Where the blanks before the token start. -/
  origin : Position
  lead : List Char
  written : List Char

namespace Token

def start (t : Token) : Position := t.origin.advanceBy t.lead

def stop (t : Token) : Position := t.start.advanceBy t.written

/-- The blanks before a token come right after the text before it. -/
@[simp] theorem start_mk_after (terminal : Terminal) (before lead written : List Char) :
    (Token.mk terminal (.after before) lead written).start = .after (before ++ lead) :=
  Position.after_advanceBy before lead

@[simp] theorem stop_mk_after (terminal : Terminal) (before lead written : List Char) :
    (Token.mk terminal (.after before) lead written).stop = .after (before ++ lead ++ written) := by
  rw [stop, start_mk_after, Position.after_advanceBy]

end Token

/-- What is found at a place that admits certain terminals. -/
inductive Scan
  /-- Blanks, and then a terminal that the place admits. -/
  | token (terminal : Terminal) (lead written rest : List Char)
  /-- Blanks, and then a character that starts no terminal that the place admits. -/
  | stuck (lead : List Char) (c : Char)
  /-- Blanks up to the end of the source. -/
  | finish (lead : List Char)

namespace Scan

/-- Goes on scanning after the blanks in `skipped`, last first. -/
def after (skipped : List Char) (admitted : List Terminal) : List Char → Scan
  | [] => .finish skipped.reverse
  | c :: s =>
    match Terminal.readFirst admitted (c :: s) with
    | some (t, written, rest) => .token t skipped.reverse written rest
    | none =>
      if Text.isBlank c then after (c :: skipped) admitted s else .stuck skipped.reverse c

def ofSource (admitted : List Terminal) (s : List Char) : Scan := after [] admitted s

theorem after_token_append {admitted : List Terminal} {t : Terminal}
    {skipped s lead written rest : List Char}
    (h : after skipped admitted s = .token t lead written rest) :
    written ≠ [] ∧ lead ++ written ++ rest = skipped.reverse ++ s := by
  induction s generalizing skipped with
  | nil => cases h
  | cons c s ih =>
    simp only [after] at h
    split at h
    · next hr =>
      cases h
      have := Terminal.readFirst_append hr
      exact ⟨this.1, by rw [List.append_assoc, this.2]⟩
    · split at h
      · simpa using ih h
      · cases h

/-- A token takes up at least one character, and nothing of the source is lost. -/
theorem token_append {admitted : List Terminal} {t : Terminal} {s lead written rest : List Char}
    (h : ofSource admitted s = .token t lead written rest) :
    written ≠ [] ∧ lead ++ written ++ rest = s :=
  after_token_append h

theorem rest_lt {admitted : List Terminal} {t : Terminal} {s lead written rest : List Char}
    (h : ofSource admitted s = .token t lead written rest) : rest.length < s.length := by
  obtain ⟨hn, hs⟩ := token_append h
  have := List.length_pos_iff.2 hn
  rw [← hs]
  simp only [List.length_append]
  omega

end Scan

end Stencil
