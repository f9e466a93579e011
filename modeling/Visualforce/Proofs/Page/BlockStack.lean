import Visualforce.Page.Blocks

/-! # The stack of open blocks

Recording touches the innermost open block alone, so blocks appended behind it and blocks opened
later do not interfere with it.
-/
namespace Visualforce

/-- The places of open blocks are places of blocks. -/
def BlockStack.Valid (stack : BlockStack) : Prop := ∀ i ∈ stack.active, i < stack.blocks.length

def PageBlock.with (block : PageBlock) (usages : List ComponentUsage) : PageBlock :=
  { block with components := block.components ++ usages }

@[simp] theorem PageBlock.with_nil (block : PageBlock) : block.with [] = block := by
  simp [PageBlock.with]

theorem PageBlock.with_with (block : PageBlock) (us vs : List ComponentUsage) :
    (block.with us).with vs = block.with (us ++ vs) := by
  simp [PageBlock.with]

namespace BlockStack

theorem empty_valid : BlockStack.empty.Valid := by simp [Valid, empty]

/-- Records usages one after the other. -/
def recordAll (stack : BlockStack) (usages : List ComponentUsage) : BlockStack :=
  usages.foldl record stack

/-- Blocks that are behind the others and not open. -/
def append (stack : BlockStack) (more : List PageBlock) : BlockStack :=
  { stack with blocks := stack.blocks ++ more }

@[simp] theorem record_active (stack : BlockStack) (usage : ComponentUsage) :
    (stack.record usage).active = stack.active := by
  obtain ⟨blocks, active⟩ := stack
  cases active <;> rfl

@[simp] theorem record_length (stack : BlockStack) (usage : ComponentUsage) :
    (stack.record usage).blocks.length = stack.blocks.length := by
  obtain ⟨blocks, active⟩ := stack
  cases active <;> simp [record]

theorem Valid.record {stack : BlockStack} (h : stack.Valid) (usage : ComponentUsage) :
    (stack.record usage).Valid := by
  simpa only [Valid, record_active, record_length] using h

theorem Valid.recordAll {stack : BlockStack} (h : stack.Valid) (usages : List ComponentUsage) :
    (stack.recordAll usages).Valid := by
  induction usages generalizing stack with
  | nil => exact h
  | cons usage rest ih => exact ih (h.record usage)

theorem Valid.append {stack : BlockStack} (h : stack.Valid) (more : List PageBlock) :
    (stack.append more).Valid := by
  intro i hi
  have hlt := h i hi
  simp only [BlockStack.append, List.length_append]
  omega

theorem Valid.enter {stack : BlockStack} (h : stack.Valid) (block : PageBlock) :
    (stack.enter block).Valid := by
  intro i hi
  simp only [BlockStack.enter, List.length_append, List.length_singleton, List.mem_cons] at hi ⊢
  rcases hi with rfl | hi
  · omega
  · have hlt := h i hi
    omega

@[simp] theorem recordAll_active (stack : BlockStack) (usages : List ComponentUsage) :
    (stack.recordAll usages).active = stack.active := by
  induction usages generalizing stack with
  | nil => rfl
  | cons usage rest ih => exact (ih (stack.record usage)).trans (stack.record_active usage)

theorem recordAll_append (stack : BlockStack) (us vs : List ComponentUsage) :
    stack.recordAll (us ++ vs) = (stack.recordAll us).recordAll vs := by
  simp [recordAll, List.foldl_append]

theorem append_nil (stack : BlockStack) : stack.append [] = stack := by simp [append]

theorem append_append (stack : BlockStack) (more others : List PageBlock) :
    (stack.append more).append others = stack.append (more ++ others) := by
  simp [append]

theorem append_record {stack : BlockStack} (h : stack.Valid) (more : List PageBlock)
    (usage : ComponentUsage) : (stack.append more).record usage =
    (stack.record usage).append more := by
  obtain ⟨blocks, active⟩ := stack
  cases active with
  | nil => rfl
  | cons i rest =>
    have hi : i < blocks.length := h i (List.mem_cons_self ..)
    simp only [append, record, BlockStack.mk.injEq, and_true]
    rw [List.modify_eq_take_cons_drop (by simp; omega), List.modify_eq_take_cons_drop hi,
      List.take_append_of_le_length (Nat.le_of_lt hi), List.drop_append_of_le_length (by omega),
      List.getElem_append_left hi, List.append_assoc, List.cons_append]

theorem append_recordAll {stack : BlockStack} (h : stack.Valid) (more : List PageBlock)
    (usages : List ComponentUsage) :
    (stack.append more).recordAll usages = (stack.recordAll usages).append more := by
  induction usages generalizing stack with
  | nil => rfl
  | cons usage rest ih =>
    change ((stack.append more).record usage).recordAll rest = _
    rw [append_record h, ih (h.record usage)]
    rfl

theorem enter_record (stack : BlockStack) (block : PageBlock) (usage : ComponentUsage) :
    (stack.enter block).record usage = stack.enter (block.with [usage]) := by
  simp only [enter, record, BlockStack.mk.injEq, and_true]
  rw [List.modify_eq_take_cons_drop (by simp)]
  simp [PageBlock.with]

/-- What is recorded while a block is innermost goes into this block. -/
theorem enter_recordAll (stack : BlockStack) (block : PageBlock) (usages : List ComponentUsage) :
    (stack.enter block).recordAll usages = stack.enter (block.with usages) := by
  induction usages generalizing block with
  | nil => simp [recordAll]
  | cons usage rest ih =>
    change ((stack.enter block).record usage).recordAll rest = _
    rw [enter_record, ih, PageBlock.with_with, List.singleton_append]

/-- Leaving a block keeps it, and all blocks opened within, behind the earlier ones. -/
theorem exit_enter_append (stack : BlockStack) (block : PageBlock) (more : List PageBlock) :
    ((stack.enter block).append more).exit = stack.append (block :: more) := by
  simp [enter, append, exit]

end BlockStack
end Visualforce
