-- SUMMARY: The written form of elements and their comparison.
import Stencil.Element

/-! # Written form and comparison

An element is written like the part of a template that it is, whatever elements it holds. In a path
a dot sets an identifier off from what precedes it, and nothing does that for other steps.

Elements of different kinds are never alike. The parts of a template that was read from a source
are written and compared as elements just as they are by themselves.
-/

namespace Stencil

namespace Element

mutual

/-- An element as a template author would write it, but for escapes in literal text. -/
def render : Element → String
  | .identifier i => i.text
  | .indexer i => i.render
  | .path root rest _ => root.text ++ renderSteps rest
  | .call _ function argument _ => argument.render ++ " | " ++ function.render
  | .text fragments _ => String.join fragments
  | .substitution expression _ => "#\x7b" ++ expression.render ++ "\x7d"
  | .conditional negated subject body _ =>
    "#\x7b" ++ Segment.conditionWord negated ++ " " ++ subject.render ++ "\x7d" ++
      renderAll body ++ "#\x7b/" ++ Segment.conditionWord negated ++ "\x7d"
  | .repetition enumerator collection body _ =>
    "#\x7beach " ++ enumerator.render ++ " in " ++ collection.render ++ "\x7d" ++
      renderAll body ++ "#\x7b/each\x7d"
  | .template segments => renderAll segments

/-- The steps of a path after its root. -/
def renderSteps : List Element → String
  | [] => ""
  | .identifier i :: rest => "." ++ i.text ++ renderSteps rest
  | e :: rest => e.render ++ renderSteps rest

/-- One element after the other. -/
def renderAll : List Element → String
  | [] => ""
  | e :: rest => e.render ++ renderAll rest

end

mutual

/-- Equal but for positions. -/
def alike : Element → Element → Bool
  | .identifier a, .identifier b => a.alike b
  | .indexer a, .indexer b => a.alike b
  | .path root rest _, .path root' rest' _ => root.alike root' && allAlike rest rest'
  | .call isFilter function argument _, .call isFilter' function' argument' _ =>
    isFilter == isFilter' && function.alike function' && argument.alike argument'
  | .text fragments _, .text fragments' _ => fragments == fragments'
  | .substitution e _, .substitution e' _ => e.alike e'
  | .conditional negated subject body _, .conditional negated' subject' body' _ =>
    negated == negated' && subject.alike subject' && allAlike body body'
  | .repetition enumerator collection body _, .repetition enumerator' collection' body' _ =>
    enumerator.alike enumerator' && collection.alike collection' && allAlike body body'
  | .template segments, .template segments' => allAlike segments segments'
  | _, _ => false

/-- Alike member by member. -/
def allAlike : List Element → List Element → Bool
  | [], [] => true
  | a :: as, b :: bs => a.alike b && allAlike as bs
  | [], _ :: _ => false
  | _ :: _, [] => false

end

/-- How many different elements there are among two. -/
def distinct (a b : Element) : Nat := if a.alike b then 1 else 2

end Element

/-! ## Parts that were read -/

theorem Element.renderSteps_cons (step : Step) (rest : List Element) :
    renderSteps (step.toElement :: rest) = step.render ++ renderSteps rest := by
  cases step <;> rfl

private theorem foldl_append_render (text : String) (rest : List Step) :
    rest.foldl (fun text step => text ++ step.render) text =
      text ++ Element.renderSteps (rest.map Step.toElement) := by
  induction rest generalizing text with
  | nil => exact String.append_empty.symm
  | cons step rest ih =>
    rw [List.foldl_cons, ih, List.map_cons, Element.renderSteps_cons, String.append_assoc]

theorem SymbolPath.render_toElement (p : SymbolPath) : p.toElement.render = p.render := by
  rw [toElement, Element.render, render, foldl_append_render]

theorem Expression.render_toElement (e : Expression) : e.toElement.render = e.render := by
  induction e with
  | path p => exact p.render_toElement
  | call isFilter function argument position ih =>
    rw [toElement, Element.render, ih, Element.render, render]

mutual

theorem Segment.render_toElement (s : Segment) : s.toElement.render = s.render := by
  cases s with
  | text fragments position => rfl
  | substitution expression position =>
    simp only [toElement, Element.render, render, expression.render_toElement]
  | conditional negated subject body position =>
    simp only [toElement, Element.render, render, subject.render_toElement,
      Segment.renderAll_toElements body]
  | repetition enumerator collection body position =>
    simp only [toElement, Element.render, render, collection.render_toElement,
      Segment.renderAll_toElements body]

theorem Segment.renderAll_toElements (l : List Segment) :
    Element.renderAll (Segment.toElements l) = Segment.renderAll l := by
  cases l with
  | nil => rfl
  | cons s rest =>
    rw [toElements, Element.renderAll, s.render_toElement, Segment.renderAll_toElements rest,
      renderAll]

end

theorem Template.render_toElement (t : Template) : t.toElement.render = t.render := by
  rw [toElement, Element.render, Segment.renderAll_toElements, render]

theorem Step.alike_toElement (a b : Step) : a.toElement.alike b.toElement = a.alike b := by
  cases a <;> cases b <;> rfl

theorem Step.allAlike_toElement (l m : List Step) :
    Element.allAlike (l.map Step.toElement) (m.map Step.toElement) = Step.allAlike l m := by
  induction l generalizing m with
  | nil => cases m <;> rfl
  | cons a l ih =>
    cases m with
    | nil => rfl
    | cons b m => simp [Element.allAlike, allAlike, alike_toElement, ih]

theorem SymbolPath.alike_toElement (p q : SymbolPath) :
    p.toElement.alike q.toElement = p.alike q := by
  rw [toElement, toElement, Element.alike, Step.allAlike_toElement, alike]

theorem Expression.alike_toElement (e f : Expression) :
    e.toElement.alike f.toElement = e.alike f := by
  induction e generalizing f with
  | path p =>
    cases f with
    | path q => exact p.alike_toElement q
    | call => rfl
  | call isFilter function argument position ih =>
    cases f with
    | path q => rfl
    | call => simp [toElement, Element.alike, alike, ih]

mutual

theorem Segment.alike_toElement (s t : Segment) :
    s.toElement.alike t.toElement = s.alike t := by
  cases s with
  | text => cases t <;> rfl
  | substitution e =>
    cases t with
    | substitution f => exact e.alike_toElement f
    | _ => rfl
  | conditional negated subject body =>
    cases t with
    | conditional negated' subject' body' =>
      simp only [toElement, Element.alike, alike, subject.alike_toElement subject',
        Segment.allAlike_toElements body body']
    | _ => rfl
  | repetition enumerator collection body =>
    cases t with
    | repetition enumerator' collection' body' =>
      simp only [toElement, Element.alike, alike, collection.alike_toElement collection',
        Segment.allAlike_toElements body body']
    | _ => rfl

theorem Segment.allAlike_toElements (l m : List Segment) :
    Element.allAlike (Segment.toElements l) (Segment.toElements m) = Segment.allAlike l m := by
  cases l with
  | nil => cases m <;> rfl
  | cons s l =>
    cases m with
    | nil => rfl
    | cons t m =>
      simp only [toElements, Element.allAlike, allAlike, s.alike_toElement t,
        Segment.allAlike_toElements l m]

end

theorem Template.alike_toElement (t u : Template) :
    t.toElement.alike u.toElement = t.alike u :=
  Segment.allAlike_toElements t.segments u.segments

end Stencil
