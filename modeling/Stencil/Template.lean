-- SUMMARY: Templates as sequences of segments, their written form and their comparison.
import Stencil.Expression

/-! # Templates

A template is a sequence of segments: literal text, substitutions, conditional blocks and
repetitions. Blocks hold the segments of their bodies. A conditional has one body, shown if its
subject holds or, in a negated conditional, if it does not; `Segment.conditionalOf` is for callers
that come with a body for either case.
-/

namespace Stencil

inductive Segment
  /-- Literal text, in fragments. Escapes are resolved already. -/
  | text (fragments : List String) (position : Option Position)
  | substitution (expression : Expression) (position : Option Position)
  | conditional (negated : Bool) (subject : SymbolPath) (body : List Segment)
      (position : Option Position)
  | repetition (enumerator : Identifier) (collection : SymbolPath) (body : List Segment)
      (position : Option Position)

structure Template where
  segments : List Segment := []

/-- The branch that a conditional has, and whether it is the one for the case that its subject does
    not hold. Members of that branch make the conditional a negated one. -/
def soleBranch {α : Type} (truthy falsy : List α) (negated : Bool) :
    Except ModelError (Bool × List α) :=
  match truthy, falsy with
  | [], [] => .ok (negated, [])
  | [], falsy => .ok (true, falsy)
  | truthy, [] => if negated then .error .truthyUnless else .ok (false, truthy)
  | _ :: _, _ :: _ => .error .twoBranches

namespace Segment

/-- A conditional from a body for either case, one of them empty. -/
def conditionalOf (subject : SymbolPath) (truthy falsy : List Segment) (negated : Bool)
    (position : Option Position) : Except ModelError Segment := do
  let (negated, body) ← soleBranch truthy falsy negated
  return .conditional negated subject body position

/-- The word that opens and closes a conditional. -/
def conditionWord (negated : Bool) : String := if negated then "unless" else "if"

def position : Segment → Option Position
  | .text _ position => position
  | .substitution _ position => position
  | .conditional _ _ _ position => position
  | .repetition _ _ _ position => position

/-! ## Written form -/

mutual

/-- A segment as a template author would write it, but for escapes in literal text. -/
def render : Segment → String
  | .text fragments _ => String.join fragments
  | .substitution expression _ => "#\x7b" ++ expression.render ++ "\x7d"
  | .conditional negated subject body _ =>
    "#\x7b" ++ conditionWord negated ++ " " ++ subject.render ++ "\x7d" ++ renderAll body ++
      "#\x7b/" ++ conditionWord negated ++ "\x7d"
  | .repetition enumerator collection body _ =>
    "#\x7beach " ++ enumerator.text ++ " in " ++ collection.render ++ "\x7d" ++ renderAll body ++
      "#\x7b/each\x7d"

def renderAll : List Segment → String
  | [] => ""
  | s :: rest => s.render ++ renderAll rest

end

/-! ## Comparison -/

mutual

/-- Equal but for positions. -/
def alike : Segment → Segment → Bool
  | .text fragments _, .text fragments' _ => fragments == fragments'
  | .substitution e _, .substitution e' _ => e.alike e'
  | .conditional negated subject body _, .conditional negated' subject' body' _ =>
    negated == negated' && subject.alike subject' && allAlike body body'
  | .repetition enumerator collection body _, .repetition enumerator' collection' body' _ =>
    enumerator.alike enumerator' && collection.alike collection' && allAlike body body'
  | _, _ => false

/-- Alike member by member. -/
def allAlike : List Segment → List Segment → Bool
  | [], [] => true
  | a :: as, b :: bs => a.alike b && allAlike as bs
  | [], _ :: _ => false
  | _ :: _, [] => false

end

end Segment

namespace Template

def render (t : Template) : String := Segment.renderAll t.segments

def alike (a b : Template) : Bool := Segment.allAlike a.segments b.segments

def size (t : Template) : Nat := t.segments.length

end Template

end Stencil
