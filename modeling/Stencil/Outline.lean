-- SUMMARY: The outline of a template: its tags and texts as they are written, with their places.
import Stencil.Token

/-! # Outlines

An outline is what the tokens of a source form before anyone looks at what they mean: which names
and indexers make up a path, which filters follow it, where blocks start and end. It still has the
blanks in and around names, since which of them count is decided later.
-/

namespace Stencil

inductive Part
  | name (token : Token)
  /-- What stands between the brackets, where the first bracket stands, and the place of a blank
      that follows the second one, if there is one. -/
  | index (bracket : Position) (written : List Char) (blank : Option Position)

inductive Head
  | condition (start : Position) (negated : Bool) (subject : List Part)
  | loop (start : Position) (enumerator : Token) (collection : List Part)

namespace Head

def start : Head → Position
  | .condition start _ _ => start
  | .loop start _ _ => start

def kind : Head → BlockKind
  | .condition _ false _ => .holds
  | .condition _ true _ => .fails
  | .loop .. => .each

end Head

inductive Node
  | text (start : Position) (written : List Char)
  | substitution (start : Position) (subject : List Part) (filters : List Token)
  | block (head : Head) (body : List Node)

/-! ## Depth

Blocks on the top level have depth one. In the search for a block beyond a limit the members of a
body are put on a stack one after the other, so the last one is looked at first.
-/

mutual

def Node.size : Node → Nat
  | .text .. => 1
  | .substitution .. => 1
  | .block _ body => Node.sizeAll body + 1

def Node.sizeAll : List Node → Nat
  | [] => 0
  | node :: nodes => node.size + sizeAll nodes

end

/-- A node that waits to be looked at, and the number of blocks around it. -/
structure Node.Pending where
  node : Node
  around : Nat

namespace Node.Pending

/-- What waits on the stack when the nodes have been put there one after the other. -/
def stacked (nodes : List Node) (around : Nat) : List Node.Pending :=
  (nodes.map fun node => ⟨node, around⟩).reverse

def size : List Node.Pending → Nat
  | [] => 0
  | pending :: stack => pending.node.size + size stack

theorem size_append (stack stack' : List Node.Pending) :
    size (stack ++ stack') = size stack + size stack' := by
  induction stack with
  | nil => simp [size]
  | cons pending stack ih => simp [size, ih, Nat.add_assoc]

theorem size_stacked (nodes : List Node) (around : Nat) :
    size (stacked nodes around) = Node.sizeAll nodes := by
  induction nodes with
  | nil => rfl
  | cons node nodes ih =>
    simp only [stacked] at ih
    simp only [stacked, List.map_cons, List.reverse_cons, size_append, size, Node.sizeAll, ih]
    omega

end Node.Pending

/-- Goes on looking for a block beyond the limit, with the top of the stack. -/
def Node.findBeyond? (limit : Int) : List Node.Pending → Option Position
  | [] => none
  | ⟨.text .., _⟩ :: stack => findBeyond? limit stack
  | ⟨.substitution .., _⟩ :: stack => findBeyond? limit stack
  | ⟨.block head body, around⟩ :: stack =>
    if limit < (around + 1 : Nat) then some head.start
    else findBeyond? limit (Node.Pending.stacked body (around + 1) ++ stack)
termination_by stack => Node.Pending.size stack
decreasing_by
  · simp [Node.Pending.size, Node.size]
  · simp [Node.Pending.size, Node.size]
  · simp only [Node.Pending.size_append, Node.Pending.size_stacked, Node.Pending.size, Node.size]
    omega

end Stencil
