-- SUMMARY: Reading a source token by token into an outline.
import Stencil.Outline

/-! # Reading

A reading is the state of someone who reads a source from its start: the blocks that are open, the
nodes finished in the innermost of them, and the place that has been reached.

A token that is found need not fit: the terminals tried at a place do not depend on the blocks that
are open or on what a path is read for. A fault therefore comes in two ways. Either no terminal is
found, and what was expected is what was tried; or a token does not fit, and what was expected is
what the state, with everything finished that could be finished, would have gone on with.
-/

namespace Stencil

/-- What a path is read for. -/
inductive Goal
  | bare
  | substitution (start : Position)
  | condition (start : Position) (negated : Bool)
  | loop (start : Position) (enumerator : Token)

/-- What comes next. Steps and filters read so far are kept last first. -/
inductive Place
  /-- Anything, at the start of the source. -/
  | opening
  /-- Anything, right after the opening tag of a block. -/
  | inside (kind : BlockKind)
  /-- Anything, after a node. -/
  | between
  | enumerator (start : Position)
  | afterEnumerator (start : Position) (enumerator : Token)
  | step (goal : Goal) (steps : List Part)
  | afterName (goal : Goal) (steps : List Part)
  | index (goal : Goal) (steps : List Part) (bracket : Position)
  | afterIndex (goal : Goal) (steps : List Part) (bracket : Position) (written : List Char)
  | afterIndexer (goal : Goal) (steps : List Part)
  | filter (start : Position) (subject : List Part) (filters : List Token)
  | afterFilter (start : Position) (subject : List Part) (filters : List Token)

/-- The terminals that a node of an outline starts with, in the order of their trial. -/
def Terminal.nodeStarts : List Terminal :=
  [.opener .fails, .opener .each, .opener .holds, .text, .substitution]

/-- The terminals that are tried at a place, in order. -/
def Place.admitted : Place → List Terminal
  | .opening => Terminal.nodeStarts
  | .inside kind => Terminal.nodeStarts ++ [.closer kind]
  | .between => Terminal.nodeStarts ++ [.closer .fails, .closer .each, .closer .holds]
  | .enumerator .. => [.name]
  | .afterEnumerator .. => [.inWord, .leftBracket, .rightBrace, .bar, .dot]
  | .step .. => [.name]
  | .afterName .. => [.inWord, .leftBracket, .rightBrace, .bar, .dot]
  | .index .. => [.index]
  | .afterIndex .. => [.rightBracket]
  | .afterIndexer .. => [.leftBracket, .rightBrace, .bar, .dot]
  | .filter .. => [.name]
  | .afterFilter .. => [.inWord, .leftBracket, .rightBrace, .bar, .dot]

def Goal.enders : Goal → List Terminal
  | .bare => []
  | .substitution _ => [.rightBrace, .bar]
  | .condition .. => [.rightBrace]
  | .loop .. => [.rightBrace]

/-- The state of reading: open blocks, innermost first, each with the nodes before it in the body
    around it; the nodes of the innermost body, last first; and the place reached. -/
structure Reading where
  blocks : List (Head × List Node) := []
  nodes : List Node := []
  place : Place

namespace Reading

def template : Reading := { place := .opening }

def path : Reading := { place := .step .bare [] }

/-! ## Steps -/

def add (r : Reading) (node : Node) : Reading :=
  { r with nodes := node :: r.nodes, place := .between }

def enter (r : Reading) (head : Head) : Reading :=
  { blocks := (head, r.nodes) :: r.blocks, nodes := [], place := .inside head.kind }

/-- The innermost block is closed, if it is of the given kind. -/
def leave (r : Reading) (kind : BlockKind) : Option Reading :=
  match r.blocks with
  | [] => none
  | (head, before) :: blocks =>
    if head.kind = kind then
      some { blocks, nodes := .block head r.nodes.reverse :: before, place := .between }
    else none

def shiftNode (r : Reading) (t : Token) : Option Reading :=
  match t.terminal with
  | .text => some (r.add (.text t.start t.written))
  | .opener .holds => some { r with place := .step (.condition t.start false) [] }
  | .opener .fails => some { r with place := .step (.condition t.start true) [] }
  | .opener .each => some { r with place := .enumerator t.start }
  | .substitution => some { r with place := .step (.substitution t.start) [] }
  | .closer kind => r.leave kind
  | _ => none

def shiftStep (r : Reading) (goal : Goal) (steps : List Part) (t : Token) : Option Reading :=
  match t.terminal with
  | .dot => some { r with place := .step goal steps }
  | .leftBracket => some { r with place := .index goal steps t.start }
  | .bar =>
    match goal with
    | .substitution start => some { r with place := .filter start steps.reverse [] }
    | _ => none
  | .rightBrace =>
    match goal with
    | .bare => none
    | .substitution start => some (r.add (.substitution start steps.reverse []))
    | .condition start negated => some (r.enter (.condition start negated steps.reverse))
    | .loop start enumerator => some (r.enter (.loop start enumerator steps.reverse))
  | _ => none

/-- What a token does, given the character that follows it. A token that does not fit does nothing
    at all. -/
def shift (r : Reading) (t : Token) (next : Option Char) : Option Reading :=
  match r.place with
  | .opening => r.shiftNode t
  | .inside _ => r.shiftNode t
  | .between => r.shiftNode t
  | .enumerator start =>
    match t.terminal with
    | .name => some { r with place := .afterEnumerator start t }
    | _ => none
  | .afterEnumerator start enumerator =>
    match t.terminal with
    | .inWord => some { r with place := .step (.loop start enumerator) [] }
    | _ => none
  | .step goal steps =>
    match t.terminal with
    | .name => some { r with place := .afterName goal (.name t :: steps) }
    | _ => none
  | .afterName goal steps => r.shiftStep goal steps t
  | .index goal steps bracket =>
    match t.terminal with
    | .index => some { r with place := .afterIndex goal steps bracket t.written }
    | _ => none
  | .afterIndex goal steps bracket written =>
    match t.terminal with
    | .rightBracket =>
      let blank := if next.any Text.isBlank then some t.stop else none
      some { r with place := .afterIndexer goal (.index bracket written blank :: steps) }
    | _ => none
  | .afterIndexer goal steps => r.shiftStep goal steps t
  | .filter start subject filters =>
    match t.terminal with
    | .name => some { r with place := .afterFilter start subject (t :: filters) }
    | _ => none
  | .afterFilter start subject filters =>
    match t.terminal with
    | .bar => some { r with place := .filter start subject filters }
    | .rightBrace => some (r.add (.substitution start subject filters.reverse))
    | _ => none

/-! ## Ends -/

def outline? (r : Reading) : Option (List Node) :=
  match r.blocks, r.place with
  | [], .opening => some r.nodes.reverse
  | [], .between => some r.nodes.reverse
  | _, _ => none

def path? (r : Reading) : Option (List Part) :=
  match r.place with
  | .afterName .bare steps => some steps.reverse
  | .afterIndexer .bare steps => some steps.reverse
  | _ => none

/-- A node, or what ends the innermost body. -/
def nodeOrEnd (r : Reading) : List Terminal :=
  match r.blocks with
  | [] => Terminal.nodeStarts ++ [.finish]
  | (head, _) :: _ => Terminal.nodeStarts ++ [.closer head.kind]

/-- What the state goes on with when it is given a terminal that does not fit. -/
def expectedFor (r : Reading) (found : Terminal) : List Terminal :=
  match r.place with
  | .opening => r.nodeOrEnd
  | .inside _ => r.nodeOrEnd
  | .between => r.nodeOrEnd
  | .enumerator .. => [.name]
  | .afterEnumerator .. => [.inWord]
  | .step .. => [.name]
  | .afterName goal _ =>
    if found = .inWord then [.finish, .leftBracket, .rightBrace, .bar, .dot] else goal.enders
  | .index .. => [.index]
  | .afterIndex .. => [.rightBracket]
  | .afterIndexer goal _ => goal.enders
  | .filter .. => [.name]
  | .afterFilter .. => [.rightBrace, .bar]

end Reading

/-! ## Faults -/

inductive Found
  | character (c : Char)
  | closer (kind : BlockKind)
  | finish
  deriving DecidableEq, Repr

/-- How a token that does not fit is named: a closing tag as such, any other by its first
    character. -/
def Found.ofToken (t : Token) : Found :=
  match t.terminal, t.written with
  | .closer kind, _ => .closer kind
  | _, c :: _ => .character c
  | _, [] => .finish

/-- Where a source stops being a beginning of a template or of a path. -/
structure Fault where
  position : Position
  found : Found
  expected : List Terminal

namespace Reading

/-- Reads on from a position to the end of the source. -/
def run (r : Reading) (p : Position) (s : List Char) : Except Fault (Reading × Position) :=
  match _h : Scan.ofSource r.place.admitted s with
  | .finish lead => .ok (r, p.advanceBy lead)
  | .stuck lead c => .error ⟨p.advanceBy lead, .character c, r.place.admitted⟩
  | .token terminal lead written rest =>
    let t : Token := { terminal, origin := p, lead, written }
    match r.shift t rest.head? with
    | none => .error ⟨t.start, Found.ofToken t, r.expectedFor terminal⟩
    | some r' => run r' t.stop rest
termination_by s.length
decreasing_by exact Scan.rest_lt _h

theorem run_finish {r : Reading} {s lead : List Char} (p : Position)
    (h : Scan.ofSource r.place.admitted s = .finish lead) :
    r.run p s = .ok (r, p.advanceBy lead) := by
  rw [run]
  split <;> simp_all

theorem run_stuck {r : Reading} {s lead : List Char} {c : Char} (p : Position)
    (h : Scan.ofSource r.place.admitted s = .stuck lead c) :
    r.run p s = .error ⟨p.advanceBy lead, .character c, r.place.admitted⟩ := by
  rw [run]
  split <;> simp_all

/-- A token that fits is read, and reading goes on after it. -/
theorem run_token {r r' : Reading} {s lead written rest : List Char} {terminal : Terminal}
    (p : Position) (h : Scan.ofSource r.place.admitted s = .token terminal lead written rest)
    (hr : r.shift ⟨terminal, p, lead, written⟩ rest.head? = some r') :
    r.run p s = r'.run (Token.stop ⟨terminal, p, lead, written⟩) rest := by
  rw [run]
  split <;> simp_all

theorem run_token_refused {r : Reading} {s lead written rest : List Char} {terminal : Terminal}
    (p : Position) (h : Scan.ofSource r.place.admitted s = .token terminal lead written rest)
    (hr : r.shift ⟨terminal, p, lead, written⟩ rest.head? = none) :
    r.run p s = .error ⟨p.advanceBy lead, Found.ofToken ⟨terminal, p, lead, written⟩,
      r.expectedFor terminal⟩ := by
  rw [run]
  split <;> simp_all [Token.start]

def endFault (r : Reading) (p : Position) : Fault := ⟨p, .finish, r.expectedFor .finish⟩

end Reading

def readOutline (source : List Char) : Except Fault (List Node) := do
  let (r, p) ← Reading.template.run .start source
  match r.outline? with
  | some nodes => .ok nodes
  | none => .error (r.endFault p)

def readPath (source : List Char) : Except Fault (List Part) := do
  let (r, p) ← Reading.path.run .start source
  match r.path? with
  | some steps => .ok steps
  | none => .error (r.endFault p)

end Stencil
