-- SUMMARY: Places in a source, as offset, line and column.

/-! # Positions

A position names a place in a source three times over: by its offset, and by a line and a column
that count from one. Only the line feed ends a line. Positions of nodes that a caller builds by hand
may be anything, so the parts are integers.
-/

namespace Stencil

/-- A place in a source. -/
structure Position where
  offset : Int
  line : Int
  column : Int
  deriving DecidableEq, Repr, Inhabited

namespace Position

def start : Position := ⟨0, 1, 1⟩

def advance (p : Position) (c : Char) : Position :=
  if c = '\n' then ⟨p.offset + 1, p.line + 1, 1⟩ else ⟨p.offset + 1, p.line, p.column + 1⟩

def advanceBy (p : Position) (s : List Char) : Position :=
  s.foldl advance p

/-- The place right after a text that a source starts with. -/
def after (before : List Char) : Position :=
  { offset := before.length
    line := before.count '\n' + 1
    column := (before.reverse.takeWhile (· != '\n')).length + 1 }

/-- The place at an offset into a source. An offset outside the source stands for its nearer end. -/
def ofOffset (source : List Char) (offset : Int) : Position :=
  after (source.take offset.toNat)

/-- How messages name a place. -/
def render (p : Position) : String :=
  "line " ++ toString p.line ++ ", column " ++ toString p.column

/-! ## Moving through a source -/

@[simp] theorem advanceBy_nil (p : Position) : p.advanceBy [] = p := rfl

@[simp] theorem advanceBy_cons (p : Position) (c : Char) (s : List Char) :
    p.advanceBy (c :: s) = (p.advance c).advanceBy s := rfl

theorem after_advance (before : List Char) (c : Char) :
    (after before).advance c = after (before ++ [c]) := by
  by_cases h : c = '\n'
  · subst h
    simp [after, advance]
  · simp [after, advance, h]

/-- A position that is kept up to date is the one that the text before it has. -/
theorem after_advanceBy (before s : List Char) :
    (after before).advanceBy s = after (before ++ s) := by
  induction s generalizing before with
  | nil => simp
  | cons c s ih => rw [advanceBy_cons, after_advance, ih, List.append_assoc, List.singleton_append]

/-- The place after a beginning of a source is the one at the offset that is its length. -/
theorem ofOffset_length (before s : List Char) :
    ofOffset (before ++ s) before.length = after before := by
  rw [ofOffset, Int.toNat_natCast, List.take_left]

/-- The place after a beginning of a source tells which beginning it is. -/
theorem eq_of_after {before before' rest rest' : List Char}
    (hs : before ++ rest = before' ++ rest') (h : after before = after before') :
    before = before' :=
  List.append_inj_left hs (Int.ofNat_inj.1 (congrArg offset h))

end Position

end Stencil
