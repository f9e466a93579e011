import Visualforce.Page.Model

/-! # Nested page blocks

Blocks are kept in the order in which they were opened. A component is recorded in the innermost
block that is open, and in that one only.
-/
namespace Visualforce

/-- All blocks opened so far, and the places of the open ones among them, the innermost first. -/
structure BlockStack where
  blocks : List PageBlock
  active : List Nat
deriving DecidableEq, Repr

namespace BlockStack

def empty : BlockStack := ⟨[], []⟩

def depth (stack : BlockStack) : Nat := stack.active.length

def current? (stack : BlockStack) : Option PageBlock :=
  stack.active.head?.bind (stack.blocks[·]?)

def enter (stack : BlockStack) (block : PageBlock) : BlockStack :=
  ⟨stack.blocks ++ [block], stack.blocks.length :: stack.active⟩

/-- Leaves the innermost block; without one nothing happens. -/
def exit (stack : BlockStack) : BlockStack := { stack with active := stack.active.tail }

def record (stack : BlockStack) (usage : ComponentUsage) : BlockStack :=
  match stack.active with
  | [] => stack
  | place :: _ =>
    { stack with blocks := stack.blocks.modify place fun block =>
        { block with components := block.components ++ [usage] } }

end BlockStack
end Visualforce
