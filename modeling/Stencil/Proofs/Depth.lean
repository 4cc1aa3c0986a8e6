-- SUMMARY: The search for blocks that are nested too deep, by recursion over them.
import Stencil.Parse

/-! # Depth

Searching an outline with a stack finds what a recursion over the blocks in it finds: of the blocks
that have as many blocks around them as there may be at most, the last one.
-/

namespace Stencil

mutual

/-- The last block in a node that has more than `room` blocks around it there. -/
def Node.tooDeep? (room : Nat) : Node → Option Position
  | .text .. => none
  | .substitution .. => none
  | .block head body =>
    match room with
    | 0 => some head.start
    | room + 1 => Node.lastTooDeep? room body

/-- The last block in a sequence of nodes that has more than `room` blocks around it there. -/
def Node.lastTooDeep? (room : Nat) : List Node → Option Position
  | [] => none
  | node :: rest =>
    match Node.lastTooDeep? room rest with
    | some p => some p
    | none => node.tooDeep? room

end

/-- The members of a body are searched from the last one to the first. -/
theorem Node.lastTooDeep?_eq_findSome? (room : Nat) (nodes : List Node) :
    lastTooDeep? room nodes = nodes.reverse.findSome? (tooDeep? room) := by
  induction nodes with
  | nil => rfl
  | cons node nodes ih =>
    rw [lastTooDeep?, ih, List.reverse_cons, List.findSome?_append]
    cases nodes.reverse.findSome? (tooDeep? room) <;> simp

/-- How many blocks deep the node may be below those around it. -/
def Node.Pending.room (limit : Int) (pending : Node.Pending) : Nat :=
  limit.toNat - pending.around

/-- Nodes on a stack are searched in the order of a body. -/
theorem Node.Pending.findSome?_stacked (limit : Int) (nodes : List Node) (around : Nat) :
    (stacked nodes around).findSome? (fun pending => pending.node.tooDeep? (pending.room limit)) =
      lastTooDeep? (limit.toNat - around) nodes := by
  rw [lastTooDeep?_eq_findSome?, stacked, ← List.map_reverse, List.findSome?_map]
  rfl

/-- With a stack, that block is found first which the recursion finds in the topmost node that has
    one. -/
theorem Node.findBeyond?_eq_findSome? (limit : Int) (stack : List Node.Pending) :
    findBeyond? limit stack =
      stack.findSome? fun pending => pending.node.tooDeep? (pending.room limit) := by
  fun_induction findBeyond? limit stack with
  | case1 => rfl
  | case2 start written around stack ih => rw [List.findSome?_cons, tooDeep?, ih]
  | case3 start subject filters around stack ih => rw [List.findSome?_cons, tooDeep?, ih]
  | case4 head body around stack hbeyond =>
    have hroom : Pending.room limit ⟨.block head body, around⟩ = 0 := by
      simp only [Pending.room]
      omega
    simp [hroom, tooDeep?]
  | case5 head body around stack hbeyond ih =>
    have hroom : Pending.room limit ⟨.block head body, around⟩ =
        limit.toNat - (around + 1) + 1 := by
      simp only [Pending.room]
      omega
    rw [ih, List.findSome?_append, Pending.findSome?_stacked, List.findSome?_cons, hroom, tooDeep?]
    cases lastTooDeep? (limit.toNat - (around + 1)) body <;> rfl

theorem Node.findBeyond?_stacked (limit : Int) (outline : List Node) :
    findBeyond? limit (Pending.stacked outline 0) = lastTooDeep? limit.toNat outline := by
  rw [findBeyond?_eq_findSome?, Pending.findSome?_stacked, Nat.sub_zero]

end Stencil
