-- SUMMARY: The symbols and filters that elements refer to.
import Stencil.Analysis
import Stencil.Element.Written

/-! # Analysis of elements

The analysis of a template goes through its members as that of a template which was read, but here
an element may stand where it cannot be looked at. What is no path has no root and cannot be listed,
and only an identifier or literal text names a filter or a loop variable. Members other than
substitutions, conditionals and repetitions are passed over, whatever they hold.

A template that was read has the same analysis as the element that it becomes.
-/

namespace Stencil

namespace Element

structure Path where
  root : Identifier
  rest : List Element
  position : Option Position

def Path.toElement (p : Path) : Element := .path p.root p.rest p.position

instance : Symbol Path where
  root p := p.root.text
  alike p q := p.toElement.alike q.toElement

def asPath : Element → Except Unfit Path
  | .path root rest position => .ok { root, rest, position }
  | e => .error (.lacks e.kind .root)

/-- The element at the bottom of a chain of calls. -/
def subject : Element → Element
  | .call _ _ argument _ => argument.subject
  | e => e

/-- The names of the functions in a chain of calls in the order of their application. The last one
    is asked for its name first. -/
def functions : Element → Except Unfit (List String)
  | .call _ function argument _ => do
    let name ← function.name
    return (← argument.functions) ++ [name]
  | _ => .ok []

/-- Goes on through the bodies that are open, the innermost first. -/
def walk (a : Analysis Path) : List (Analysis.Frame Element) → Except Unfit (Analysis Path)
  | [] => .ok a
  | ⟨[], _⟩ :: frames => walk a frames
  | ⟨.substitution e _ :: rest, bound⟩ :: frames => do
    let functions ← e.functions
    let path ← e.subject.asPath
    walk (functions.foldl Analysis.addFilter (a.addSymbol bound path)) (⟨rest, bound⟩ :: frames)
  | ⟨.conditional _ subject body _ :: rest, bound⟩ :: frames => do
    let path ← subject.asPath
    walk (a.addSymbol bound path) (⟨body, bound⟩ :: ⟨rest, bound⟩ :: frames)
  | ⟨.repetition enumerator collection body _ :: rest, bound⟩ :: frames => do
    let path ← collection.asPath
    let name ← enumerator.name
    walk (a.addSymbol bound path) (⟨body, name :: bound⟩ :: ⟨rest, bound⟩ :: frames)
  | ⟨_ :: rest, bound⟩ :: frames => walk a (⟨rest, bound⟩ :: frames)
termination_by frames => frames.foldr (fun frame size => sizeOf frame.rest + size) 0
decreasing_by
  all_goals
    simp only [List.foldr_cons, List.nil.sizeOf_spec, List.cons.sizeOf_spec,
      conditional.sizeOf_spec, repetition.sizeOf_spec]
    omega

/-- What a template refers to. Other elements are no sequences. -/
def analysis : Element → Except Unfit (Analysis Path)
  | .template segments => walk {} [⟨segments, []⟩]
  | e => .error (.noSequence e.kind)

end Element

/-! ## Parts that were read -/

def SymbolPath.toElementPath (p : SymbolPath) : Element.Path :=
  { root := p.root, rest := p.rest.map Step.toElement, position := p.position }

theorem SymbolPath.asPath_toElement (p : SymbolPath) :
    p.toElement.asPath = .ok p.toElementPath := rfl

theorem SymbolPath.alike_toElementPath (p q : SymbolPath) :
    Symbol.alike p.toElementPath q.toElementPath = p.alike q :=
  p.alike_toElement q

theorem Expression.subject_toElement (e : Expression) :
    e.toElement.subject = e.subject.toElement := by
  induction e with
  | path p => rfl
  | call isFilter function argument position ih => exact ih

theorem Expression.functions_toElement (e : Expression) :
    e.toElement.functions = .ok e.functions := by
  induction e with
  | path p => rfl
  | call isFilter function argument position ih =>
    rw [toElement, Element.functions, ih]
    rfl

namespace Analysis

/-- The symbols as paths of elements. -/
def toElements (a : Analysis SymbolPath) : Analysis Element.Path :=
  { symbols := a.symbols.map SymbolPath.toElementPath, filters := a.filters }

theorem toElements_addSymbol (a : Analysis SymbolPath) (bound : List String) (p : SymbolPath) :
    (a.addSymbol bound p).toElements = a.toElements.addSymbol bound p.toElementPath := by
  have known : (a.symbols.map SymbolPath.toElementPath).any (Symbol.alike p.toElementPath) =
      a.symbols.any (Symbol.alike p) := by
    rw [List.any_map]
    exact congrArg _ (funext fun q => p.alike_toElementPath q)
  have root : Symbol.root p.toElementPath = Symbol.root p := rfl
  unfold addSymbol
  simp only [toElements, known, root]
  split <;> simp

theorem toElements_addFilter (a : Analysis SymbolPath) (name : String) :
    (a.addFilter name).toElements = a.toElements.addFilter name := by
  unfold addFilter
  simp only [toElements]
  split <;> simp_all

theorem toElements_foldl_addFilter (a : Analysis SymbolPath) (names : List String) :
    (names.foldl addFilter a).toElements = names.foldl addFilter a.toElements := by
  induction names generalizing a with
  | nil => rfl
  | cons name rest ih => rw [List.foldl_cons, ih, toElements_addFilter, List.foldl_cons]

def Frame.toElements (frame : Frame Segment) : Frame Element :=
  ⟨Segment.toElements frame.rest, frame.bound⟩

theorem walk_toElements (a : Analysis SymbolPath) (frames : List (Frame Segment)) :
    Element.walk a.toElements (frames.map Frame.toElements) = .ok (walk a frames).toElements := by
  induction a, frames using walk.induct with
  | case1 a => rw [List.map_nil, Element.walk, walk]
  | case2 a bound frames ih =>
    rw [List.map_cons, Frame.toElements, Segment.toElements, Element.walk, ih, walk]
  | case3 a fragments position rest bound frames ih =>
    rw [walk, ← ih, List.map_cons, Frame.toElements, Segment.toElements, Segment.toElement,
      Element.walk]
    · rfl
    -- Text is none of the members that are looked at.
    all_goals nofun
  | case4 a e position rest bound frames ih =>
    rw [walk, ← ih, toElements_foldl_addFilter, toElements_addSymbol, List.map_cons,
      Frame.toElements, Segment.toElements, Segment.toElement, Element.walk,
      e.functions_toElement, e.subject_toElement]
    rfl
  | case5 a negated subject body position rest bound frames ih =>
    rw [walk, ← ih, toElements_addSymbol, List.map_cons, Frame.toElements, Segment.toElements,
      Segment.toElement, Element.walk, subject.asPath_toElement]
    rfl
  | case6 a enumerator collection body position rest bound frames ih =>
    rw [walk, ← ih, toElements_addSymbol, List.map_cons, Frame.toElements, Segment.toElements,
      Segment.toElement, Element.walk, collection.asPath_toElement]
    rfl

theorem analysis_toElement (t : Template) :
    t.toElement.analysis = .ok (ofTemplate t).toElements :=
  walk_toElements {} [⟨t.segments, []⟩]

theorem rootNames_toElements (a : Analysis SymbolPath) : a.toElements.rootNames = a.rootNames := by
  simp only [rootNames, toElements, List.map_map]
  rfl

end Analysis

end Stencil
