-- SUMMARY: Reports of what is wrong with a source, with an excerpt that points at the place.
import Stencil.Position

/-! # Reports

A report tells a template author what is wrong, where, and what was expected there. If both the
source and the position are known, it ends with the line in question and a caret under the column.
Line zero and negative lines count back from the last line.
-/

namespace Stencil

structure Report where
  message : String
  position : Option Position := none
  expected : List String := []
  source : Option String := none

structure NoSuchLine where
  deriving DecidableEq, Repr

def NoSuchLine.message (_ : NoSuchLine) : String := "list index out of range"

def linesFrom (line : List Char) : List Char → List (List Char)
  | [] => [line.reverse]
  | c :: s => if c = '\n' then line.reverse :: linesFrom [] s else linesFrom (c :: line) s

/-- The text cut at its line feeds; there is always at least one line. -/
def linesOf (s : List Char) : List (List Char) := linesFrom [] s

/-- The line with a number: line one is the first, line zero the last. -/
def lineAt? (lines : List (List Char)) (number : Int) : Option (List Char) :=
  if number ≥ 1 then lines[(number - 1).toNat]?
  else if lines.length + (number - 1) < 0 then none
  else lines[(lines.length + (number - 1)).toNat]?

namespace Report

def line (r : Report) : Option Int := r.position.map (·.line)

/-- What was expected, each thing once, in the order of code points. -/
def expectedInOrder (r : Report) : List String :=
  r.expected.eraseDups.mergeSort (fun a b => decide (a ≤ b))

/-- The line in question with a caret under the column, unless the source ends before that line. -/
def excerpt (r : Report) : Except NoSuchLine (List String) :=
  match r.source, r.position with
  | some source, some p =>
    let lines := linesOf source.toList
    if p.line > lines.length then .ok []
    else
      match lineAt? lines p.line with
      | none => .error {}
      | some line =>
        let label := "Line " ++ toString p.line ++ ": "
        let indent := (label.length + p.column - 1).toNat
        .ok [label ++ String.ofList line, String.ofList (List.replicate indent ' ' ++ ['^'])]
  | _, _ => .ok []

def renderLines (r : Report) : Except NoSuchLine (List String) := do
  let excerpt ← r.excerpt
  return ["Error: " ++ r.message]
    ++ (r.position.map fun p => "  At: " ++ p.render).toList
    ++ (if r.expected.isEmpty then [] else
      ["  Expected: " ++ String.intercalate ", " r.expectedInOrder])
    ++ excerpt

def render (r : Report) : Except NoSuchLine String := do
  return String.intercalate "\n" (← r.renderLines)

end Report

end Stencil
