-- SUMMARY: Literal text between tags: where it ends, and what it stands for.

/-! # Literal text

Tags start with `#{`, so a hash mark in literal text needs care only where a tag could start. Text
is a sequence of pieces, of which the first in this order applies:

* a character other than `#`;
* `#` at the end of the source;
* `##` before `#{`, which stands for `#`, so that the tag counts;
* `##{`, which stands for `#{`;
* `#` and any character but `{`.

Literal text ends where no piece starts: at the end of the source or at `#{`. When a stretch of
source is cut into fragments, what follows it still decides what a hash mark in it means.
-/

namespace Stencil.Literal

/-- Goes on reading literal text; `read` is what has been read of it, last character first. -/
def splitFrom (read : List Char) : List Char → List Char × List Char
  | [] => (read.reverse, [])
  | ['#'] => (('#' :: read).reverse, [])
  | '#' :: '#' :: '{' :: s => splitFrom ('{' :: '#' :: '#' :: read) s
  | '#' :: '#' :: '#' :: '{' :: s => (('#' :: '#' :: read).reverse, '#' :: '{' :: s)
  | '#' :: '{' :: s => (read.reverse, '#' :: '{' :: s)
  | '#' :: c :: s => splitFrom (c :: '#' :: read) s
  | c :: s => splitFrom (c :: read) s

/-- The longest literal text at the start of a source, and what follows it. -/
def split (s : List Char) : List Char × List Char := splitFrom [] s

theorem splitFrom_append (read s : List Char) :
    (splitFrom read s).1 ++ (splitFrom read s).2 = read.reverse ++ s := by
  fun_induction splitFrom read s <;> simp_all

/-- Nothing of the source is lost. -/
theorem split_append (s : List Char) : (split s).1 ++ (split s).2 = s :=
  splitFrom_append [] s

/-! ## Fragments -/

/-- A unit of literal text: how it is written, what it stands for, and what follows it. -/
structure Piece where
  written : List Char
  meaning : List Char
  rest : List Char

def piece? : List Char → Option Piece
  | [] => none
  | ['#'] => some ⟨['#'], ['#'], []⟩
  | '#' :: '#' :: '#' :: '{' :: s => some ⟨['#', '#'], ['#'], '#' :: '{' :: s⟩
  | '#' :: '#' :: '{' :: s => some ⟨['#', '#', '{'], ['#', '{'], s⟩
  | '#' :: '{' :: _ => none
  | '#' :: c :: s => some ⟨['#', c], ['#', c], s⟩
  | c :: s =>
    let run := c :: s.takeWhile (· ≠ '#')
    some ⟨run, run, s.dropWhile (· ≠ '#')⟩

/-- A stretch that is no literal text: at `offset` no piece starts. -/
structure NotLiteral where
  offset : Int
  deriving DecidableEq, Repr

def NotLiteral.message (e : NotLiteral) : String :=
  "Not literal text at offset " ++ toString e.offset

theorem piece?_rest_lt {s : List Char} {p : Piece} (h : piece? s = some p) :
    p.rest.length < s.length := by
  unfold piece? at h
  split at h <;> cases h
  case h_7 c s _ _ _ _ _ =>
    exact Nat.lt_succ_of_le (List.dropWhile_sublist _).length_le
  all_goals simp only [List.length_cons, List.length_nil]; omega

/-- Goes on cutting the text that starts at offset `pos` until `stop`; `done` are the fragments so
    far, last first. -/
def fragmentsFrom (s : List Char) (pos stop : Int) (done : List String) :
    Except NotLiteral (List String) :=
  if pos < stop then
    match h : piece? s with
    | none => .error ⟨pos⟩
    | some p =>
      have := piece?_rest_lt h
      fragmentsFrom p.rest (max pos 0 + p.written.length) stop (String.ofList p.meaning :: done)
  else .ok done.reverse
termination_by s.length

/-- The fragments of the text between two offsets of a source. -/
def unescape (source : List Char) (start stop : Int) : Except NotLiteral (List String) :=
  fragmentsFrom (source.drop start.toNat) start stop []

end Stencil.Literal
