-- SUMMARY: Everything that can go wrong between a source and a template.
import Stencil.ParseError
import Stencil.Path
import Stencil.Source

/-! # Failures

A source that is no template fails with a parse error. The other failures concern what a caller
hands in, or parts that do not form a node; reading a text never leads to one of them.
-/

namespace Stencil

inductive Failure
  | parse (error : ParseError)
  | source (error : SourceError)
  | literal (error : Literal.NotLiteral)
  | model (error : ModelError)
  | report (error : NoSuchLine)

end Stencil
