-- SUMMARY: From the outline of a source to its template or path.
import Stencil.Failure
import Stencil.Template

/-! # Segments of an outline

Where an outline is turned into segments, it is decided which blanks belong to names:

* A blank between two steps belongs to the name that it touches: `Order .Total` is `"Order "` and
  `"Total"`. What follows an indexer therefore has to follow it at once.
* In a template, blanks next to the ends of a tag, a filter bar or the word `in` are dropped. A
  bare path has no such ends, so nothing of it is dropped.
-/

namespace Stencil

open Text (trim trimEnd)

/-- What the machine that segments are built on has room for, whatever limit the caller sets. -/
structure Machine where
  /-- How deep blocks may be nested and still be built. -/
  room : Nat := 500
  /-- The limit that an author is told of if they are nested deeper. -/
  recursionLimit : Nat := 1000

/-- Whether a path is the whole source or stands in a tag. -/
inductive Extent
  | bare
  | tag
  deriving DecidableEq, Repr

/-- The identifier that a name token stands for if its blanks do not count. -/
def Token.identifier (t : Token) : Identifier :=
  { text := String.ofList (trim t.written), position := some t.start }

/-- The step that a name token stands for. Only the first name of a path in a tag leaves out the
    blanks before it, and only the last one those after it. -/
def Token.pathIdentifier (t : Token) (extent : Extent) (first last : Bool) : Identifier :=
  match extent with
  | .bare => { text := String.ofList (t.lead ++ t.written), position := some t.origin }
  | .tag =>
    let (text, place) := if first then (t.written, t.start) else (t.lead ++ t.written, t.origin)
    { text := String.ofList (if last then trimEnd text else text), position := some place }

/-- The failure of an indexer that a blank follows where only a step may. -/
def blankAfterIndexer (source : String) (p : Position) : Failure :=
  .parse { cause := .blankAfterIndexer, position := some p, source }

def Part.step (source : String) (extent : Extent) (first last : Bool) : Part → Except Failure Step
  | .name t => .ok (.name (t.pathIdentifier extent first last))
  | .index bracket written blank => do
    let indexer ← (Indexer.ofText (String.ofList written) (some bracket)).mapError .model
    match blank with
    | some p =>
      if extent = .tag ∧ last then .ok (.index indexer) else .error (blankAfterIndexer source p)
    | none => .ok (.index indexer)

def Part.steps (source : String) (extent : Extent) (first : Bool) :
    List Part → Except Failure (List Step)
  | [] => .ok []
  | part :: rest => do
    let step ← part.step source extent first rest.isEmpty
    return step :: (← Part.steps source extent false rest)

/-- The path that parts stand for. It stands where its first step does. -/
def SymbolPath.ofParts (source : String) (extent : Extent) (parts : List Part) :
    Except Failure SymbolPath := do
  let steps ← Part.steps source extent true parts
  (SymbolPath.ofSteps steps (steps.head?.bind Step.position)).mapError .model

/-- The fragments of literal text, cut where it stands in the source. -/
def literalFragments (source : String) (start : Position) (written : List Char) :
    Except Failure (List String) :=
  (Literal.unescape source.toList start.offset (start.offset + written.length)).mapError .literal

def tooDeepToBuild (source : String) (recursionLimit : Nat) : Failure :=
  .parse { cause := .tooDeepToBuild recursionLimit, source }

mutual

/-- The segment that a node stands for, if the machine has room for the blocks in it. -/
def Node.segment (source : String) (machine : Machine) : Node → Except Failure Segment
  | .text start written => do
    return .text (← literalFragments source start written) (some start)
  | .substitution start subject filters => do
    let path ← SymbolPath.ofParts source .tag subject
    return .substitution (.fold (.path path) (filters.map Token.identifier)) (some start)
  | .block head body =>
    match machine.room with
    | 0 => .error (tooDeepToBuild source machine.recursionLimit)
    | room + 1 =>
      let within := { machine with room }
      match head with
      | .condition start negated subject => do
        let path ← SymbolPath.ofParts source .tag subject
        let body ← Node.segments source within body
        let (truthy, falsy) := if negated then ([], body) else (body, [])
        (Segment.conditionalOf path truthy falsy negated (some start)).mapError .model
      | .loop start enumerator collection => do
        let path ← SymbolPath.ofParts source .tag collection
        let body ← Node.segments source within body
        return .repetition enumerator.identifier path body (some start)

def Node.segments (source : String) (machine : Machine) : List Node → Except Failure (List Segment)
  | [] => .ok []
  | node :: rest => do
    let segment ← node.segment source machine
    return segment :: (← Node.segments source machine rest)

end

end Stencil
