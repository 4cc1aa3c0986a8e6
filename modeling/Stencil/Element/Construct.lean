-- SUMMARY: Putting elements together, with the checks that this takes.
import Stencil.Element.Form

/-! # Putting elements together

A path and a conditional cannot be made of any parts. The checks are those that the parts of a
template go through when it is read; here they apply to parts that may be any elements.
-/

namespace Stencil

namespace Element

def ofSteps : List Element → Option Position → Except ModelError Element
  | [], _ => .error .noSteps
  | .identifier root :: rest, position => .ok (.path root rest position)
  | e :: _, _ => .error (.rootIsNoIdentifier e.form)

/-- A conditional from a body for either case, one of them empty. -/
def conditionalOf (subject : Element) (truthy falsy : List Element) (negated : Bool)
    (position : Option Position) : Except ModelError Element := do
  let (negated, body) ← soleBranch truthy falsy negated
  return .conditional negated subject body position

/-- The subject sent through filters, the first one first. A call stands where its filter does. -/
def fold (subject : Element) : List Element → Except Unfit Element
  | [] => .ok subject
  | function :: rest => do fold (.call true function subject (← function.position)) rest

end Element

/-! ## Parts that were read -/

theorem SymbolPath.ofSteps_toElement (steps : List Step) (position : Option Position) :
    Element.ofSteps (steps.map Step.toElement) position =
      (SymbolPath.ofSteps steps position).map SymbolPath.toElement := by
  cases steps with
  | nil => rfl
  | cons step rest => cases step <;> rfl

theorem soleBranch_map {α β : Type} (f : α → β) (truthy falsy : List α) (negated : Bool) :
    soleBranch (truthy.map f) (falsy.map f) negated =
      (soleBranch truthy falsy negated).map fun branch => (branch.1, branch.2.map f) := by
  cases truthy <;> cases falsy <;> cases negated <;> rfl

theorem Segment.conditionalOf_toElement (subject : SymbolPath) (truthy falsy : List Segment)
    (negated : Bool) (position : Option Position) :
    Element.conditionalOf subject.toElement (Segment.toElements truthy)
        (Segment.toElements falsy) negated position =
      (Segment.conditionalOf subject truthy falsy negated position).map Segment.toElement := by
  rw [Segment.toElements_eq_map, Segment.toElements_eq_map, Element.conditionalOf, conditionalOf,
    soleBranch_map]
  cases soleBranch truthy falsy negated with
  | error => rfl
  | ok branch =>
    show Except.ok _ = Except.ok _
    rw [toElement, Segment.toElements_eq_map]

theorem Expression.fold_toElement (subject : Expression) (filters : List Identifier) :
    Element.fold subject.toElement (filters.map Element.identifier) =
      .ok (subject.fold filters).toElement := by
  induction filters generalizing subject with
  | nil => rfl
  | cons function rest ih => exact ih (.call true function subject function.position)

end Stencil
