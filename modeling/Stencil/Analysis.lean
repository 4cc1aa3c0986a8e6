-- SUMMARY: The symbols and filters that a template refers to.
import Stencil.Template
import Stencil.Text.Blank

/-! # Analysis

The analysis lists the paths that a template reads from the values it is given and the filters it
applies, each once and in the order of first use. A path whose root is the loop variable of a
repetition around it is not listed.
-/

namespace Stencil

/-- What can be listed as a symbol. -/
class Symbol (σ : Type) where
  root : σ → String
  /-- Whether two symbols are listed as one. -/
  alike : σ → σ → Bool

instance : Symbol SymbolPath where
  root p := p.root.text
  alike := SymbolPath.alike

/-- What a template refers to. -/
structure Analysis (σ : Type) where
  symbols : List σ := []
  filters : List String := []

namespace Analysis

variable {σ : Type} [Symbol σ]

/-- Notes the use of a symbol below the given loop variables. -/
def addSymbol (a : Analysis σ) (bound : List String) (s : σ) : Analysis σ :=
  let root := String.ofList (Text.trim (Symbol.root s).toList)
  if bound.contains root || a.symbols.any (Symbol.alike s) then a
  else { a with symbols := a.symbols ++ [s] }

def addFilter (a : Analysis σ) (name : String) : Analysis σ :=
  if a.filters.contains name then a else { a with filters := a.filters ++ [name] }

/-- The names of the values that the template needs, each once and in the order of code points. -/
def rootNames (a : Analysis σ) : List String :=
  (a.symbols.map Symbol.root).eraseDups.mergeSort (fun x y => decide (x ≤ y))

/-! ## Templates

The bodies that are open wait on a stack, so no depth of blocks is too much.
-/

/-- A body that has not been gone through to its end: what is left of it, and the loop variables
    around it. -/
structure Frame (μ : Type) where
  rest : List μ
  bound : List String

/-- Goes on through the bodies that are open, the innermost first. -/
def walk (a : Analysis SymbolPath) : List (Frame Segment) → Analysis SymbolPath
  | [] => a
  | ⟨[], _⟩ :: frames => walk a frames
  | ⟨.text .. :: rest, bound⟩ :: frames => walk a (⟨rest, bound⟩ :: frames)
  | ⟨.substitution e _ :: rest, bound⟩ :: frames =>
    walk (e.functions.foldl addFilter (a.addSymbol bound e.subject)) (⟨rest, bound⟩ :: frames)
  | ⟨.conditional _ subject body _ :: rest, bound⟩ :: frames =>
    walk (a.addSymbol bound subject) (⟨body, bound⟩ :: ⟨rest, bound⟩ :: frames)
  | ⟨.repetition enumerator collection body _ :: rest, bound⟩ :: frames =>
    walk (a.addSymbol bound collection)
      (⟨body, enumerator.text :: bound⟩ :: ⟨rest, bound⟩ :: frames)
termination_by frames => frames.foldr (fun frame size => sizeOf frame.rest + size) 0
decreasing_by
  all_goals
    simp only [List.foldr_cons, List.nil.sizeOf_spec, List.cons.sizeOf_spec,
      Segment.conditional.sizeOf_spec, Segment.repetition.sizeOf_spec]
    omega

def ofTemplate (t : Template) : Analysis SymbolPath := walk {} [⟨t.segments, []⟩]

end Analysis

end Stencil
