import Mathlib.Data.List.Perm.Subperm
import Visualforce.Proofs.Markup.Occurrence
import Visualforce.Proofs.Page.BlockStack
import Visualforce.Proofs.Page.Walk

/-! # Components and their blocks

A component belongs to the nearest page block around it and to no other. The walk keeps the open
blocks on a stack; the stack is as before after every subtree, and what a subtree records splits
into the usages outside its own blocks, which go to the innermost block that is open around it, and
its blocks, which are complete when the walk leaves them.
-/
namespace Visualforce.Page
open Markup

variable {config : Config}

/-- A head adds its own usage and nothing else to the components. -/
theorem visitHead_components {head : Head} {children : List Node} {walk walk' : Walk}
    (h : visitHead config head children walk = .ok walk') :
    walk'.page.components = walk.page.components ++ (usage? head).toList := by
  rw [visitHead_eq, map_eq_ok] at h
  obtain ⟨page, htag, rfl⟩ := h
  obtain ⟨es, rs, bs, cs, hattrs⟩ := visitAttributes_frame head walk.page
  have hadd : (addUsage config head (visitAttributes head walk.page)).components =
      walk.page.components ++ (usage? head).toList := by
    rw [hattrs, addUsage]
    cases usage? head <;> simp [visitUsage]
  rw [← hadd]
  rcases visitTag_cases htag with ⟨-, rfl⟩ | ⟨-, rfl⟩ | ⟨-, found, -, rfl⟩ | ⟨-, -, -, rfl⟩ <;> rfl

mutual
theorem traceNode_heads {α : Type} (f : Head → List α) (path : List Text) (place : List Nat) :
    ∀ node : Node, traceNode (fun _ _ => []) (fun head _ => f head) path node =
      (node.occurrences place).flatMap (f ·.head)
  | .text _ => by simp [traceNode, Node.occurrences]
  | .element head children => by
    simp only [traceNode, Node.occurrences, List.flatMap_cons]
    rw [traceNodes_heads f _ place 0 children]

/-- A trace that only looks at heads goes through the occurrences in document order. -/
theorem traceNodes_heads {α : Type} (f : Head → List α) (path : List Text) (place : List Nat)
    (first : Nat) : ∀ nodes : List Node, traceNodes (fun _ _ => [])
    (fun head _ => f head) path nodes =
      (occurrencesIn place first nodes).flatMap (f ·.head)
  | [] => by simp [traceNodes, occurrencesIn]
  | node :: rest => by
    simp only [traceNodes, occurrencesIn, List.flatMap_append]
    rw [traceNode_heads f path (place ++ [first]) node, traceNodes_heads f path place (first + 1)
      rest]
end

def usagesOf (listed : List Occurrence) : List ComponentUsage := listed.filterMap (usage? ·.head)

theorem visitAll_components {path : List Text} {nodes : List Node} {walk walk' : Walk}
    (h : visitAll config path nodes walk = .ok walk') (place : List Nat) (first : Nat) :
    walk'.page.components = walk.page.components ++ usagesOf (occurrencesIn place first nodes) := by
  have hadds : walk'.page.components = walk.page.components ++
      traceNodes (fun _ _ => []) (fun head _ => (usage? head).toList) path nodes :=
    visitAll_adds (·.components) (fun _ _ _ => by simp [collect])
      (fun _ _ _ _ hhead => visitHead_components hhead) path nodes walk walk' h
  rw [hadds, traceNodes_heads _ path place first, usagesOf, List.filterMap_eq_flatMap_toList]

def blockWith (group : Occurrence × List Occurrence) : PageBlock :=
  (blockOf group.1.head).with (usagesOf group.2)

theorem recordUsage_eq (head : Head) (blocks : BlockStack) :
    recordUsage head blocks = blocks.recordAll (usage? head).toList := by
  simp only [recordUsage]
  cases usage? head <;> rfl

theorem visitHead_blocks {head : Head} {children : List Node} {walk walk' : Walk}
    (h : visitHead config head children walk = .ok walk') :
    walk'.blocks = walk.blocks.recordAll (usage? head).toList := by
  rw [visitHead_eq, map_eq_ok] at h
  obtain ⟨page, -, rfl⟩ := h
  exact recordUsage_eq head walk.blocks

theorem usagesOf_cons (o : Occurrence) (rest : List Occurrence) :
    usagesOf (o :: rest) = (usage? o.head).toList ++ usagesOf rest := by
  simp only [usagesOf, List.filterMap_cons]
  cases usage? o.head <;> rfl

theorem usagesOf_append (few others : List Occurrence) :
    usagesOf (few ++ others) = usagesOf few ++ usagesOf others := by
  simp [usagesOf]

mutual
theorem visit_blocks (place : List Nat) (path : List Text) : ∀ (node : Node) (walk walk' : Walk),
    visit config path node walk = .ok walk' → walk.blocks.Valid →
      walk'.blocks = (walk.blocks.recordAll (usagesOf (node.outer blockTag place))).append
        ((node.groups blockTag place).map blockWith)
  | .text content, walk, walk', h, _ => by
    simp only [visit, Except.ok.injEq] at h
    subst h
    simp [Node.outer, Node.groups, usagesOf, BlockStack.recordAll, BlockStack.append_nil]
  | .element head children, walk, walk', h, hvalid => by
    obtain ⟨entered, hhead, h⟩ := visit_element_cases h
    have hentered := visitHead_blocks hhead
    have hvalid' : entered.blocks.Valid := hentered ▸ hvalid.recordAll _
    rcases h with ⟨hblock, left, hall, rfl⟩ | ⟨hblock, hall⟩
    · have hinner := visitAll_blocks place 0 (path ++ [head.tag]) children
        (entered.enter (blockOf head)) left hall (hvalid'.enter _)
      -- What the children record outside their own blocks completes the block that was entered.
      have hleft : left.blocks = (entered.blocks.enter (blockWith (⟨place, head⟩,
          outerIn blockTag place 0 children))).append
            ((groupsIn blockTag place 0 children).map blockWith) := by
        rw [hinner]
        change ((entered.blocks.enter (blockOf head)).recordAll _).append _ = _
        rw [BlockStack.enter_recordAll]
        rfl
      change left.blocks.exit = _
      rw [hleft, BlockStack.exit_enter_append, hentered, Node.outer, Node.groups, if_pos hblock,
        if_pos hblock, usagesOf_cons]
      simp [usagesOf]
    · have hinner :=
        visitAll_blocks place 0 (path ++ [head.tag]) children entered walk' hall hvalid'
      rw [hinner, hentered, Node.outer, Node.groups, if_neg hblock, if_neg hblock, usagesOf_cons,
        BlockStack.recordAll_append]

theorem visitAll_blocks (place : List Nat) (first : Nat) (path : List Text) :
    ∀ (nodes : List Node) (walk walk' : Walk),
    visitAll config path nodes walk = .ok walk' → walk.blocks.Valid →
      walk'.blocks = (walk.blocks.recordAll (usagesOf (outerIn blockTag place first nodes))).append
        ((groupsIn blockTag place first nodes).map blockWith)
  | [], walk, walk', h, _ => by
    simp only [visitAll, Except.ok.injEq] at h
    subst h
    simp [outerIn, groupsIn, usagesOf, BlockStack.recordAll, BlockStack.append_nil]
  | node :: rest, walk, walk', h, hvalid => by
    rw [visitAll, bind_eq_ok] at h
    obtain ⟨middle, hnode, h⟩ := h
    have hfirst := visit_blocks (place ++ [first]) path node walk middle hnode hvalid
    have hvalid' : middle.blocks.Valid := hfirst ▸ (hvalid.recordAll _).append _
    have hrest := visitAll_blocks place (first + 1) path rest middle walk' h hvalid'
    rw [hrest, hfirst, BlockStack.append_recordAll (hvalid.recordAll _), BlockStack.append_append,
      outerIn, groupsIn, usagesOf_append, BlockStack.recordAll_append, List.map_append]
end

mutual
theorem outer_groups_perm (place : List Nat) : ∀ node : Node,
    (node.outer blockTag place ++ (node.groups blockTag place).flatMap (·.2)).Perm
      (node.occurrences place)
  | .text _ => by simp [Node.outer, Node.groups, Node.occurrences]
  | .element head children => by
    have hinner := outerIn_groupsIn_perm place 0 children
    by_cases hblock : head.tag = blockTag
    · simpa [Node.outer, Node.groups, Node.occurrences, hblock] using hinner
    · simpa [Node.outer, Node.groups, Node.occurrences, hblock] using hinner

theorem outerIn_groupsIn_perm (place : List Nat) (first : Nat) : ∀ nodes : List Node,
    (outerIn blockTag place first nodes ++ (groupsIn blockTag place first nodes).flatMap (·.2)).Perm
      (occurrencesIn place first nodes)
  | [] => by simp [outerIn, groupsIn, occurrencesIn]
  | node :: rest => by
    have hnode := outer_groups_perm (place ++ [first]) node
    have hrest := outerIn_groupsIn_perm place (first + 1) rest
    simp only [outerIn, groupsIn, occurrencesIn, List.flatMap_append]
    refine List.Perm.trans ?_ (hnode.append hrest)
    simp only [List.append_assoc]
    refine List.Perm.append_left _ ?_
    rw [← List.append_assoc, ← List.append_assoc]
    exact (List.perm_append_comm).append_right _
end

mutual
/-- The open blocks are the same before and after a subtree. -/
theorem visit_active (path : List Text) : ∀ (node : Node) (walk walk' : Walk),
    visit config path node walk = .ok walk' → walk'.blocks.active = walk.blocks.active
  | .text content, walk, walk', h => by
    simp only [visit, Except.ok.injEq] at h
    exact h ▸ rfl
  | .element head children, walk, walk', h => by
    obtain ⟨entered, hhead, h⟩ := visit_element_cases h
    have hentered : entered.blocks.active = walk.blocks.active := by
      rw [visitHead_blocks hhead, BlockStack.recordAll_active]
    rw [← hentered]
    rcases h with ⟨-, left, hall, rfl⟩ | ⟨-, hall⟩
    · have hinner := visitAll_active (path ++ [head.tag]) children _ left hall
      change left.blocks.active.tail = _
      rw [hinner]
      rfl
    · exact visitAll_active (path ++ [head.tag]) children entered walk' hall

theorem visitAll_active (path : List Text) : ∀ (nodes : List Node) (walk walk' : Walk),
    visitAll config path nodes walk = .ok walk' → walk'.blocks.active = walk.blocks.active
  | [], walk, walk', h => by
    simp only [visitAll, Except.ok.injEq] at h
    exact h ▸ rfl
  | node :: rest, walk, walk', h => by
    rw [visitAll, bind_eq_ok] at h
    obtain ⟨middle, hnode, h⟩ := h
    rw [visitAll_active path rest middle walk' h, visit_active path node walk middle hnode]
end

theorem ofTree_components {root : Element} {page : Page} (h : ofTree config root = .ok page) :
    page.components = usagesOf root.below := by
  obtain ⟨walk, hwalk, rfl⟩ := ofTree_eq_ok h
  obtain ⟨es, rs, bs, cs, hstart⟩ := visitAttributes_frame root.head (ofRoot root.head)
  have hall := visitAll_components hwalk [] 0
  rw [hstart] at hall
  exact hall

theorem ofTree_blocks {root : Element} {page : Page} (h : ofTree config root = .ok page) :
    page.blocks = (groupsIn blockTag [] 0 root.children).map blockWith := by
  obtain ⟨walk, hwalk, rfl⟩ := ofTree_eq_ok h
  have hall := visitAll_blocks [] 0 [root.head.tag] root.children _ walk hwalk
    BlockStack.empty_valid
  have hnone : ∀ usages, BlockStack.empty.recordAll usages = BlockStack.empty := by
    intro usages
    induction usages with
    | nil => rfl
    | cons usage rest ih => exact ih
  simp only [hall, hnone]
  rfl

/-- The block elements below the root in document order with their titles and ids, each with the
components that have it as their nearest block. -/
def attributedBlocks (root : Element) : List PageBlock :=
  (root.below.filter (·.head.tag = blockTag)).map fun b =>
    ⟨b.head.get? "title".toList, b.head.get? "id".toList,
      usagesOf (nearestGroup root.below blockTag b)⟩

theorem groupsIn_blocks (root : Element) :
    (groupsIn blockTag [] 0 root.children).map blockWith = attributedBlocks root := by
  rw [groupsIn_eq_nearest, nearestGroups, List.map_map]
  exact List.map_congr_left fun b _ => by simp [blockWith, blockOf, PageBlock.with, Element.below]

/-- Counted with repetition, the blocks hold no component that the page does not have. -/
theorem attributedBlocks_subperm (root : Element) :
    ((attributedBlocks root).flatMap (·.components)).Subperm (usagesOf root.below) := by
  have hperm := (outerIn_groupsIn_perm [] 0 root.children).filterMap (usage? ·.head)
  rw [List.filterMap_append] at hperm
  have hgroups : (attributedBlocks root).flatMap (·.components) =
      ((groupsIn blockTag [] 0 root.children).flatMap (·.2)).filterMap (usage? ·.head) := by
    rw [← groupsIn_blocks, List.filterMap_flatMap, List.flatMap_map]
    exact List.flatMap_congr fun group _ => by simp [blockWith, blockOf, PageBlock.with, usagesOf]
  rw [hgroups]
  exact ((List.sublist_append_right _ _).subperm).trans hperm.subperm

/-- With both preview limits set, reading a tree lists its components in document order and gives
each to the nearest block around it, which is unique and never the component itself; the open blocks
are those from before after every subtree. -/
theorem ofTree_attributes_components_to_nearest_block (config : Config) (root : Element)
    (hlimits : HasPreviewLimits config) :
    ∃ page, ofTree config root = .ok page ∧
      page.components = usagesOf root.below ∧ (root.below.map (·.place)).Nodup ∧
      page.blocks = attributedBlocks root ∧
      (page.blocks.flatMap (·.components)).Subperm page.components ∧
      (∀ a b o, Occurrence.IsNearest root.below blockTag a o →
        Occurrence.IsNearest root.below blockTag b o → a = b) ∧
      (∀ outer inner o, inner ∈ root.below → inner.head.tag = blockTag → outer.IsAbove inner →
        inner.IsAbove o → ¬ Occurrence.IsNearest root.below blockTag outer o) ∧
      (∀ b, ¬ Occurrence.IsNearest root.below blockTag b b) ∧
      ∀ path node walk walk', visit config path node walk = .ok walk' →
        walk'.blocks.active = walk.blocks.active := by
  obtain ⟨page, hpage⟩ := ofTree_ok hlimits root
  have hcomponents := ofTree_components hpage
  have hblocks : page.blocks = attributedBlocks root :=
    (ofTree_blocks hpage).trans (groupsIn_blocks root)
  refine ⟨page, hpage, hcomponents, occurrencesIn_places_nodup [] 0 root.children, hblocks, ?_,
    fun a b o ha hb => ha.unique hb, ?_, fun b hb => b.not_isAbove_self hb.2.2.1,
    fun path node walk walk' => visit_active path node walk walk'⟩
  · rw [hblocks, hcomponents]
    exact attributedBlocks_subperm root
  · intro outer inner o hmem htag hout hin hnearest
    have hle := hnearest.2.2.2 inner hmem htag hin
    exact absurd hle.length_le (by have := hout.length_lt; omega)

/-- A block that holds a field, inside another block. -/
def nestedBlocks : Element :=
  ⟨⟨"apex:page".toList, []⟩,
    [.element ⟨blockTag, [⟨"title".toList, "Outer".toList⟩]⟩
      [.text "before".toList,
        .element ⟨blockTag, [⟨"title".toList, "Inner".toList⟩]⟩
          [.element ⟨"apex:inputField".toList, []⟩ []],
        .element ⟨"apex:commandButton".toList, []⟩ []]]⟩

theorem ofTree_nestedBlocks : HasPreviewLimits Config.standard ∧
    ∃ page, ofTree Config.standard nestedBlocks = .ok page ∧
      page.components.map (·.name) =
        ["pageBlock", "pageBlock", "inputField", "commandButton"].map String.toList ∧
      page.blocks.map (fun b => (b.title, b.components.map (·.name))) =
        [(some "Outer".toList, ["pageBlock".toList, "commandButton".toList]),
          (some "Inner".toList, ["inputField".toList])] := by
  have hlimits : HasPreviewLimits Config.standard := by decide
  obtain ⟨page, hpage, hcomponents, -, hblocks, -⟩ :=
    ofTree_attributes_components_to_nearest_block Config.standard nestedBlocks hlimits
  refine ⟨hlimits, page, hpage, ?_, ?_⟩
  · rw [hcomponents]
    decide
  · rw [hblocks]
    decide

end Visualforce.Page
