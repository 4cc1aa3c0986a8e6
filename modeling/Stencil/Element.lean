-- SUMMARY: Any part of a template as one type, with any parts in it.
import Stencil.Template

/-! # Elements

Callers who put elements together by hand may use any element where a certain one is due: a
substitution may show a template, and a path may step into a conditional. What is checked whenever
an element is put together holds all the same: a path starts with an identifier, no indexer is
empty, and a conditional has one body.
-/

namespace Stencil

/-- A part of a template, or a template, with any elements in it. -/
inductive Element
  | identifier (identifier : Identifier)
  | indexer (indexer : Indexer)
  | path (root : Identifier) (rest : List Element) (position : Option Position)
  | call (isFilter : Bool) (function argument : Element) (position : Option Position)
  | text (fragments : List String) (position : Option Position)
  | substitution (expression : Element) (position : Option Position)
  | conditional (negated : Bool) (subject : Element) (body : List Element)
      (position : Option Position)
  | repetition (enumerator collection : Element) (body : List Element)
      (position : Option Position)
  | template (segments : List Element)

namespace Element

inductive Kind
  | identifier
  | indexer
  | path
  | call
  | text
  | substitution
  | conditional
  | repetition
  | template
  deriving DecidableEq, Repr

/-- The name under which a kind is known to callers. -/
def Kind.name : Kind → String
  | .identifier => "Identifier"
  | .indexer => "Indexer"
  | .path => "SymbolExpression"
  | .call => "FunctionCallExpression"
  | .text => "TextToken"
  | .substitution => "SubstitutionToken"
  | .conditional => "ConditionalToken"
  | .repetition => "RepetitionToken"
  | .template => "Template"

def kind : Element → Kind
  | .identifier _ => .identifier
  | .indexer _ => .indexer
  | .path .. => .path
  | .call .. => .call
  | .text .. => .text
  | .substitution .. => .substitution
  | .conditional .. => .conditional
  | .repetition .. => .repetition
  | .template _ => .template

/-! ## What only some kinds have

Where an element stands in for one of another kind, it may lack what is asked of it.
-/

/-- Something that elements of some kinds have. -/
inductive Property
  | text
  | root
  | position
  deriving DecidableEq, Repr

def Property.name : Property → String
  | .text => "text"
  | .root => "root"
  | .position => "position"

/-- Why an element cannot take the place that it has. -/
inductive Unfit
  | lacks (kind : Kind) (property : Property)
  | noSequence (kind : Kind)
  deriving DecidableEq, Repr

def Unfit.message : Unfit → String
  | .lacks kind property =>
    "'" ++ kind.name ++ "' object has no attribute '" ++ property.name ++ "'"
  | .noSequence kind => "'" ++ kind.name ++ "' object is not iterable"

/-- The name that an element gives to a filter or a loop variable. Literal text serves, too. -/
def name : Element → Except Unfit String
  | .identifier i => .ok i.text
  | .text fragments _ => .ok (String.join fragments)
  | e => .error (.lacks e.kind .text)

/-- Where an element stands, if that is known. All but templates keep it. -/
def position : Element → Except Unfit (Option Position)
  | .identifier i => .ok i.position
  | .indexer i => .ok i.position
  | .path _ _ position => .ok position
  | .call _ _ _ position => .ok position
  | .text _ position => .ok position
  | .substitution _ position => .ok position
  | .conditional _ _ _ position => .ok position
  | .repetition _ _ _ position => .ok position
  | .template _ => .error (.lacks .template .position)

end Element

/-! ## Parts of a template as elements -/

def Step.toElement : Step → Element
  | .name i => .identifier i
  | .index i => .indexer i

def SymbolPath.toElement (p : SymbolPath) : Element :=
  .path p.root (p.rest.map Step.toElement) p.position

def Expression.toElement : Expression → Element
  | .path p => p.toElement
  | .call isFilter function argument position =>
    .call isFilter (.identifier function) argument.toElement position

mutual

def Segment.toElement : Segment → Element
  | .text fragments position => .text fragments position
  | .substitution expression position => .substitution expression.toElement position
  | .conditional negated subject body position =>
    .conditional negated subject.toElement (Segment.toElements body) position
  | .repetition enumerator collection body position =>
    .repetition (.identifier enumerator) collection.toElement (Segment.toElements body) position

def Segment.toElements : List Segment → List Element
  | [] => []
  | s :: rest => s.toElement :: Segment.toElements rest

end

def Template.toElement (t : Template) : Element := .template (Segment.toElements t.segments)

theorem Segment.toElements_eq_map (l : List Segment) :
    Segment.toElements l = l.map Segment.toElement := by
  induction l with
  | nil => rfl
  | cons s rest ih => rw [toElements, ih, List.map_cons]

end Stencil
