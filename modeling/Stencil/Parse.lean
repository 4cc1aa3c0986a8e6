-- SUMMARY: Parsing templates and bare paths.
import Stencil.Outline.Segments

/-! # Parsing

A source is read into an outline, the outline is checked for the depth of its blocks, and then it
is built. Each stage is reached only if the one before it found nothing wrong, so a fault in
reading is reported before blocks that are nested too deep, and those before blanks that stand
where they must not.
-/

namespace Stencil

/-- The depth to which blocks may be nested if the caller sets no limit. -/
def defaultDepth : Int := 64

/-- Refuses an outline whose blocks are nested deeper than `limit`. -/
def checkNesting (source : String) (limit : Int) (outline : List Node) : Except Failure Unit :=
  match Node.findBeyond? limit (Node.Pending.stacked outline 0) with
  | none => .ok ()
  | some p => .error (.parse { cause := .nestedBeyond limit, position := some p, source })

/-- The template that a source is, with blocks nested at most `limit` deep. -/
def parseTemplate (source : String) (limit : Int := defaultDepth) (machine : Machine := {}) :
    Except Failure Template := do
  let outline ← (readOutline source.toList).mapError fun f => .parse (.ofFault source f)
  checkNesting source limit outline
  return { segments := ← Node.segments source machine outline }

/-- The path that a source is. All of the source has to belong to it. -/
def parsePath (source : String) : Except Failure SymbolPath := do
  let parts ← (readPath source.toList).mapError fun f => .parse (.ofFault source f)
  SymbolPath.ofParts source .bare parts

/-! ## Sources that may be no text -/

namespace Source

def template (s : Source) (limit : Int := defaultDepth) (machine : Machine := {}) :
    Except Failure Template :=
  match s with
  | .text source => parseTemplate source limit machine
  | .other kind => .error (.source (.notText kind))

def path : Source → Except Failure SymbolPath
  | .text source => parsePath source
  | .other kind => .error (.source (.notText kind))

end Source

/-- The report of a parse error takes the place of the result. Other failures are not caught. -/
def catchParseError {α : Type} : Except Failure α → Except Failure (Except String α)
  | .ok a => .ok (.ok a)
  | .error (.parse e) => return .error (← e.report.render.mapError .report)
  | .error f => .error f

def Source.tryPath (s : Source) : Except Failure (Option SymbolPath) :=
  match s.path with
  | .ok p => .ok (some p)
  | .error (.parse _) => .ok none
  | .error f => .error f

end Stencil
