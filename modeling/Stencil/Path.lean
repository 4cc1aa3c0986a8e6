-- SUMMARY: Identifiers, indexers and the symbol paths that they form.
import Stencil.Position
import Stencil.Text.Quoted

/-! # Symbol paths

A symbol path names a value by a root identifier and steps into it: `Order.Lines[0].Price`. The
type keeps what every path has: it starts with an identifier, and no indexer is empty. Positions say
where a part was read.
-/

namespace Stencil

/-- A name in a path, or the name of a filter or of a loop variable. -/
structure Identifier where
  text : String
  position : Option Position := none
  deriving DecidableEq, Repr

structure Indexer where
  index : String
  position : Option Position := none
  index_ne : index ≠ ""
  deriving DecidableEq

/-- Why parts do not form a node. -/
inductive ModelError
  | emptyIndex
  | noSteps
  /-- The first step of a path is what the form says instead of an identifier. -/
  | rootIsNoIdentifier (form : String)
  | twoBranches
  | truthyUnless
  deriving DecidableEq, Repr

/-- An indexer, if there is something between its brackets. -/
def Indexer.ofText (index : String) (position : Option Position) : Except ModelError Indexer :=
  if h : index = "" then .error .emptyIndex else .ok { index, position, index_ne := h }

def Indexer.render (i : Indexer) : String := "[" ++ i.index ++ "]"

/-- How messages spell out an indexer. -/
def Indexer.form (i : Indexer) : String := "Indexer(index=" ++ Text.quote i.index ++ ")"

inductive Step
  | name (identifier : Identifier)
  | index (indexer : Indexer)
  deriving DecidableEq

def Step.position : Step → Option Position
  | .name i => i.position
  | .index i => i.position

/-- A step that is not the root: a dot sets a name off from what precedes it. -/
def Step.render : Step → String
  | .name i => "." ++ i.text
  | .index i => i.render

structure SymbolPath where
  root : Identifier
  rest : List Step := []
  position : Option Position := none
  deriving DecidableEq

namespace SymbolPath

/-- All steps, the root first. -/
def steps (p : SymbolPath) : List Step := .name p.root :: p.rest

def ofSteps : List Step → Option Position → Except ModelError SymbolPath
  | [], _ => .error .noSteps
  | .index i :: _, _ => .error (.rootIsNoIdentifier i.form)
  | .name root :: rest, position => .ok { root, rest, position }

def render (p : SymbolPath) : String :=
  p.rest.foldl (fun text step => text ++ step.render) p.root.text

end SymbolPath

/-! ## Wording -/

def ModelError.message : ModelError → String
  | .emptyIndex => "Indexer requires a non-empty index"
  | .noSteps => "SymbolExpression requires at least one step"
  | .rootIsNoIdentifier form => "SymbolExpression must start with an identifier, got " ++ form
  | .twoBranches => "ConditionalToken branches are mutually exclusive"
  | .truthyUnless => "An unless block has no truthy branch"

/-! ## Comparison

Two parts are alike if they differ in positions at most.
-/

def Identifier.alike (a b : Identifier) : Bool := a.text == b.text

def Indexer.alike (a b : Indexer) : Bool := a.index == b.index

def Step.alike : Step → Step → Bool
  | .name a, .name b => a.alike b
  | .index a, .index b => a.alike b
  | .name _, .index _ => false
  | .index _, .name _ => false

/-- Alike member by member. -/
def Step.allAlike : List Step → List Step → Bool
  | [], [] => true
  | a :: as, b :: bs => a.alike b && Step.allAlike as bs
  | [], _ :: _ => false
  | _ :: _, [] => false

def SymbolPath.alike (a b : SymbolPath) : Bool :=
  a.root.alike b.root && Step.allAlike a.rest b.rest

end Stencil
