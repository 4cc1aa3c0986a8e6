-- SUMMARY: What a substitution shows: a path, or a path sent through filters.
import Stencil.Path

/-! # Expressions

An expression is a path or the application of a function to an expression. A chain of filters
`subject | first | second` applies `second` to the result of `first`.
-/

namespace Stencil

inductive Expression
  | path (path : SymbolPath)
  | call (isFilter : Bool) (function : Identifier) (argument : Expression)
      (position : Option Position)
  deriving DecidableEq

namespace Expression

/-- The subject sent through filters, the first one first. A call stands where its filter does. -/
def fold (subject : Expression) (filters : List Identifier) : Expression :=
  filters.foldl (fun argument function => .call true function argument function.position) subject

def subject : Expression → SymbolPath
  | .path p => p
  | .call _ _ argument _ => argument.subject

/-- The names of the functions in the order of their application. -/
def functions : Expression → List String
  | .path _ => []
  | .call _ function argument _ => argument.functions ++ [function.text]

def position : Expression → Option Position
  | .path p => p.position
  | .call _ _ _ position => position

def render : Expression → String
  | .path p => p.render
  | .call _ function argument _ => argument.render ++ " | " ++ function.text

def alike : Expression → Expression → Bool
  | .path a, .path b => a.alike b
  | .call isFilter function argument _, .call isFilter' function' argument' _ =>
    isFilter == isFilter' && function.alike function' && argument.alike argument'
  | .path _, .call .. => false
  | .call .., .path _ => false

end Expression

end Stencil
