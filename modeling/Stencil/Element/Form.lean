-- SUMMARY: The constructor form of elements.
import Stencil.Element

/-! # Constructor form

The constructor form of an element spells out how it is put together, one constructor with its
named arguments inside the other; positions are left out. A sequence of exactly one member keeps a
comma after it.
-/

namespace Stencil

open Text (quote)

/-- A sequence of members whose forms are given. -/
def tupleForm : List String → String
  | [] => "()"
  | [member] => "(" ++ member ++ ",)"
  | members => "(" ++ String.intercalate ", " members ++ ")"

def truthForm (b : Bool) : String := if b then "True" else "False"

/-- A constructor applied to named arguments whose forms are given. -/
def applicationForm (kind : Element.Kind) (arguments : List (String × String)) : String :=
  kind.name ++ "(" ++
    String.intercalate ", " (arguments.map fun (name, form) => name ++ "=" ++ form) ++ ")"

def Identifier.form (i : Identifier) : String :=
  applicationForm .identifier [("text", quote i.text)]

namespace Element

mutual

def form : Element → String
  | .identifier i => i.form
  | .indexer i => i.form
  | .path root rest _ =>
    applicationForm .path [("steps", tupleForm (root.form :: forms rest))]
  | .call isFilter function argument _ =>
    applicationForm .call [("is_filter", truthForm isFilter), ("function", function.form),
      ("argument", argument.form)]
  | .text fragments _ => applicationForm .text [("fragments", tupleForm (fragments.map quote))]
  | .substitution expression _ => applicationForm .substitution [("expression", expression.form)]
  | .conditional negated subject body _ =>
    let body := tupleForm (forms body)
    applicationForm .conditional [("token", subject.form),
      ("truthy", if negated then "()" else body), ("falsy", if negated then body else "()"),
      ("negated", truthForm negated)]
  | .repetition enumerator collection body _ =>
    applicationForm .repetition [("collection", collection.form), ("enumerator", enumerator.form),
      ("template", tupleForm (forms body))]
  | .template segments => "Template([" ++ String.intercalate ", " (forms segments) ++ "])"

def forms : List Element → List String
  | [] => []
  | e :: rest => e.form :: forms rest

end

end Element

end Stencil
