-- SUMMARY: What callers hand in as the source of a template.

/-! # Sources

Only text can be a template, but a caller may hand in anything. Of a value that is no text it
matters only what kind it is.
-/

namespace Stencil

/-- The kinds of values that a caller may hand in where source text is due. -/
inductive ValueKind
  | nothing
  | boolean
  | whole
  | real
  | sequence
  | record
  deriving DecidableEq, Repr

namespace ValueKind

def name : ValueKind → String
  | .nothing => "NoneType"
  | .boolean => "bool"
  | .whole => "int"
  | .real => "float"
  | .sequence => "list"
  | .record => "dict"

/-- Whether values of the kind can be looked up: those with parts that may change cannot. -/
def isKey : ValueKind → Bool
  | .sequence => false
  | .record => false
  | _ => true

end ValueKind

/-- What a caller hands in as the source of a template. -/
inductive Source
  | text (source : String)
  | other (kind : ValueKind)

inductive SourceError
  | notText (kind : ValueKind)
  | noKey (kind : ValueKind)
  | noLength (kind : ValueKind)
  deriving DecidableEq, Repr

def SourceError.message : SourceError → String
  | .notText kind => "Template source must be a string, not " ++ kind.name
  | .noKey kind => "unhashable type: '" ++ kind.name ++ "'"
  | .noLength kind => "object of type '" ++ kind.name ++ "' has no len()"

end Stencil
