-- SUMMARY: Why a source is no template, and what its author is told.
import Stencil.Outline.Reading
import Stencil.Report
import Stencil.Text.Quoted

/-! # Parse errors

A source that is no template fails with a parse error: it names the cause, the place, and what was
expected there. Its report also shows the line in question.
-/

namespace Stencil

/-- Why a source is no template. -/
inductive ParseError.Cause
  | unexpected (found : Found)
  | nestedBeyond (limit : Int)
  | tooDeepToBuild (limit : Nat)
  | blankAfterIndexer
  deriving DecidableEq, Repr

structure ParseError where
  cause : ParseError.Cause
  position : Option Position := none
  expected : List Terminal := []
  source : String

def Found.message : Found → String
  | .character c => "Unexpected character " ++ Text.quote c.toString
  | .closer kind =>
    "Unexpected '" ++ kind.closer ++ "' (block closer does not match an open block)"
  | .finish => "Unexpected end of template"

def ParseError.Cause.message : ParseError.Cause → String
  | .unexpected found => found.message
  | .nestedBeyond limit => "Blocks are nested more than " ++ toString limit ++ " levels deep"
  | .tooDeepToBuild limit =>
    "Blocks are nested too deeply to build (recursion limit " ++ toString limit ++ ")"
  | .blankAfterIndexer => "Unexpected whitespace after ']'"

namespace ParseError

/-- The error of a fault met in reading. -/
def ofFault (source : String) (f : Fault) : ParseError :=
  { cause := .unexpected f.found, position := some f.position, expected := f.expected, source }

def message (e : ParseError) : String := e.cause.message

def report (e : ParseError) : Report :=
  { message := e.message
    position := e.position
    expected := e.expected.map Terminal.description
    source := some e.source }

end ParseError

end Stencil
