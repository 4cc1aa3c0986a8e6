-- SUMMARY: Picking segments of a template by number.
import Stencil.Template

/-! # Access by number

Segments of the top level are numbered from zero; a negative number counts from the end. A slice
takes every `step`-th segment from `start` up to but without `stop`, in either direction, and
clamps both ends to the template.
-/

namespace Stencil

inductive AccessError
  | noSuchSegment
  | zeroStep
  | immutable
  deriving DecidableEq, Repr

def AccessError.message : AccessError → String
  | .noSuchSegment => "tuple index out of range"
  | .zeroStep => "slice step cannot be zero"
  | .immutable => "Template is immutable"

namespace Template

def get (t : Template) (i : Int) : Except AccessError Segment :=
  let n := if i < 0 then i + t.size else i
  match if n < 0 then none else t.segments[n.toNat]? with
  | some s => .ok s
  | none => .error .noSuchSegment

/-- The numbers that a slice visits in a sequence of `size` members. -/
def sliceNumbers (size : Int) (start stop : Option Int) (step : Int) : List Int :=
  let low := if step < 0 then -1 else 0
  let high := if step < 0 then size - 1 else size
  let clamp (i : Int) : Int := if i < 0 then max low (i + size) else min high i
  let first := (start.map clamp).getD (if step < 0 then high else low)
  let last := (stop.map clamp).getD (if step < 0 then low else high)
  let count :=
    if step < 0 then (first - last + (-step - 1)) / -step else (last - first + (step - 1)) / step
  (List.range count.toNat).map fun (k : Nat) => first + k * step

def slice (t : Template) (start stop step : Option Int) : Except AccessError (List Segment) :=
  let step := step.getD 1
  if step = 0 then .error .zeroStep
  else .ok ((sliceNumbers t.size start stop step).filterMap fun n => t.segments[n.toNat]?)

/-- Giving a template a new attribute is refused, whatever its name. -/
def assign (_ : Template) (_ : String) : Except AccessError Unit :=
  .error .immutable

end Template

end Stencil
