import Visualforce.Markup.Build
import Visualforce.Proofs.Xml.ReadDocument

/-! # From documents to trees

The document that a page is read as has the tree of the page. Expanded names get their qualifiers
back, runs of text and values lose the blanks around them, and elements stay nested as deeply as
they were.
-/
namespace Visualforce.Markup
open Xml (spelled expandedName expandedAttributes documentMaker)

variable {qualifiers : List Text} {encode : Text → Text}

/-- The declarations of a page, as its text shows them. -/
def declaredBy (qualifiers : List Text) : List (Text × Text) :=
  qualifiers.map fun qualifier => (qualifier, "urn:".toList ++ qualifier)

theorem find?_declaredBy {qualifier : Text} (h : qualifier ∈ qualifiers) :
    (declaredBy qualifiers).reverse.find? (·.2 == "urn:".toList ++ qualifier) =
      some (qualifier, "urn:".toList ++ qualifier) := by
  have hmem : (qualifier, "urn:".toList ++ qualifier) ∈ (declaredBy qualifiers).reverse :=
    List.mem_reverse.mpr (List.mem_map_of_mem h)
  cases hfind : (declaredBy qualifiers).reverse.find? (·.2 == "urn:".toList ++ qualifier) with
  | none =>
    have hnone := List.find?_eq_none.mp hfind _ hmem
    exact absurd (beq_self_eq_true _) hnone
  | some entry =>
    have hsame := List.find?_some hfind
    have heq : entry.2 = "urn:".toList ++ qualifier := beq_iff_eq.mp hsame
    obtain ⟨other, -, rfl⟩ :=
      List.mem_map.mp (List.mem_reverse.mp (List.mem_of_find?_eq_some hfind))
    rw [List.append_cancel_left heq]

/-- A name gets back the qualifier that its namespace was declared for. -/
theorem qualify_expandedName {name : Text} (h : IsSpelling name)
    (hdeclared : qualifierOf name ⊆ qualifiers) :
    qualify (declaredBy qualifiers) (expandedName name) = name := by
  cases h with
  | simple hbase =>
    rw [expandedName, Xml.spelled_simple hbase]
    rfl
  | @qualified qualifier base hqualifier hbase =>
    have hmem : qualifier ∈ qualifiers := hdeclared (by simp [qualifierOf_qualified hqualifier])
    have hfilled : qualifier.isEmpty = false := by
      obtain ⟨c, more, rfl, -⟩ := exists_cons_of_isPart hqualifier
      rfl
    rw [expandedName, Xml.spelled_qualified hqualifier, qualify]
    simp only [Option.map_some]
    rw [find?_declaredBy hmem]
    simp [hfilled]

/-- How the names and values of a page are turned back. -/
def pageConversion (qualifiers : List Text) : Conversion := ⟨declaredBy qualifiers, true⟩

theorem nodes_append (conversion : Conversion) (first second : List Xml.Node) :
    conversion.nodes (first ++ second) = conversion.nodes first ++ conversion.nodes second := by
  induction first with
  | nil => rfl
  | cons node first ih =>
    rw [List.cons_append, Conversion.nodes, ih, Conversion.nodes,
      List.append_assoc]

theorem head_pageConversion {head : Head} (h : head.IsReadBack encode)
    (hdeclared : head.qualifiers ⊆ qualifiers) :
    (pageConversion qualifiers).head (expandedName head.tag) (expandedAttributes head) =
      head.trimmed := by
  obtain ⟨htag, hnames⟩ := List.append_subset.mp hdeclared
  have hattributes : ∀ attr ∈ head.attributes,
      (⟨qualify (declaredBy qualifiers) (expandedName attr.name), Text.trim attr.value⟩ :
      Attribute) = attr.trimmed :=
    fun attr hattr => by
      have hname : qualifierOf attr.name ⊆ qualifiers := fun qualifier hmem =>
        hnames (List.mem_flatMap.mpr ⟨attr, hattr, hmem⟩)
      rw [qualify_expandedName (h.names attr hattr).1.spelling hname, Attribute.trimmed]
  rw [Conversion.head, expandedAttributes, List.map_map]
  change Head.mk (qualify (declaredBy qualifiers) (expandedName head.tag))
    (head.attributes.map fun attr =>
    ⟨qualify (declaredBy qualifiers) (expandedName attr.name), Text.trim attr.value⟩) = head.trimmed
  rw [List.map_congr_left hattributes, qualify_expandedName h.spelling htag, Head.trimmed]

theorem nodes_text (conversion : Conversion) (htrim : conversion.trimValues = true) (run : Text) :
    conversion.nodes (documentMaker.text run) = treeMaker.text run := by
  cases run with
  | nil => rfl
  | cons c run =>
    simp [documentMaker, treeMaker, Conversion.nodes, Conversion.node, Conversion.clean, htrim]

structure Becomes (qualifiers : List Text) (document : Forest Xml.Node) (forest : Forest Node) :
    Prop where
  front : document.front = forest.front
  nodes : (pageConversion qualifiers).nodes document.nodes = forest.nodes

theorem Becomes.all {document : Forest Xml.Node} {forest : Forest Node}
    (h : Becomes qualifiers document forest) :
    (pageConversion qualifiers).nodes (document.all documentMaker) = forest.all treeMaker := by
  rw [Forest.all, nodes_append, nodes_text _ rfl, h.front, h.nodes, Forest.all]

theorem Becomes.element {document : Forest Xml.Node} {forest : Forest Node} {head : Head}
    {children : List Xml.Node} {nodes : List Node} (h : Becomes qualifiers document forest)
    (hhead : head.IsReadBack encode) (hdeclared : head.qualifiers ⊆ qualifiers)
    (hchildren : (pageConversion qualifiers).nodes children = nodes) :
    Becomes qualifiers ⟨[], documentMaker.element head children :: document.all documentMaker⟩
      ⟨[], treeMaker.element head.trimmed nodes :: forest.all treeMaker⟩ := by
  refine ⟨rfl, ?_⟩
  simp only [documentMaker, treeMaker]
  rw [Conversion.nodes, Conversion.node, head_pageConversion hhead hdeclared, hchildren]
  exact congrArg _ h.all

mutual
theorem becomes_before : ∀ (part : Written) {document : Forest Xml.Node} {forest : Forest Node},
    (∀ token ∈ part.tokens, token.IsReadBack encode) →
    (∀ head ∈ headsOf part.tokens, head.qualifiers ⊆ qualifiers) →
      Becomes qualifiers document forest →
      Becomes qualifiers (part.before documentMaker document) (part.trimmed.before treeMaker forest)
  | .text content, document, forest, _, _, h => by
    refine ⟨?_, h.nodes⟩
    rw [Written.before, Written.trimmed, Written.before, h.front]
  | .closed head, document, forest, hspelled, hdeclared, h =>
    h.element (hspelled _ List.mem_cons_self) (hdeclared head List.mem_cons_self) rfl
  | .element head children, document, forest, hspelled, hdeclared, h => by
    rw [Written.tokens, headsOf_opening, List.forall_mem_cons, headsOf_append] at hdeclared
    rw [Written.tokens, List.forall_mem_cons, List.forall_mem_append] at hspelled
    obtain ⟨hhead, hinside⟩ := hdeclared
    exact h.element hspelled.1 hhead (becomes_forestOf children hspelled.2.1 fun head hmem =>
      hinside head (List.mem_append_left _ hmem)).all

theorem becomes_forestOf :
    ∀ (parts : List Written), (∀ token ∈ tokensOf parts, token.IsReadBack encode) →
    (∀ head ∈ headsOf (tokensOf parts), head.qualifiers ⊆ qualifiers) →
      Becomes qualifiers (forestOf documentMaker parts) (forestOf treeMaker (trimmedAll parts))
  | [], _, _ => ⟨rfl, rfl⟩
  | part :: rest, hspelled, hdeclared => by
    rw [tokensOf, headsOf_append, List.forall_mem_append] at hdeclared
    rw [tokensOf, List.forall_mem_append] at hspelled
    exact becomes_before part hspelled.1 hdeclared.1 (becomes_forestOf rest hspelled.2 hdeclared.2)
end

/-- The document of a page becomes the tree of the page, with trimmed values. -/
theorem element_pageConversion {page : Written} {head : Head} (hhead : head.IsReadBack encode)
    (hinner : ∀ token ∈ tokensOf page.children, token.IsReadBack encode)
    (hdeclared : head.qualifiers ⊆ qualifiers)
    (hinside : ∀ inner ∈ headsOf (tokensOf page.children), inner.qualifiers ⊆ qualifiers) :
    (pageConversion qualifiers).element ⟨expandedName head.tag, expandedAttributes head,
      (forestOf documentMaker page.children).all documentMaker⟩ =
      page.trimmed.tree head.trimmed := by
  rw [Conversion.element, head_pageConversion hhead hdeclared,
    (becomes_forestOf _ hinner hinside).all, Written.tree, Written.children_trimmed]
  rfl

/-- Runs of text add nothing to the depth. -/
theorem depth_all (forest : Forest Xml.Node) :
    Xml.Node.depthOfList (forest.all documentMaker) = Xml.Node.depthOfList forest.nodes := by
  obtain ⟨front, nodes⟩ := forest
  cases front with
  | nil => rfl
  | cons c front => simp [Forest.all, documentMaker, Xml.Node.depthOfList, Xml.Node.depth]

mutual
theorem depth_before : ∀ (part : Written) (forest : Forest Xml.Node),
    Xml.Node.depthOfList ((part.before documentMaker forest).all documentMaker) =
      max part.depth (Xml.Node.depthOfList (forest.all documentMaker))
  | .text content, forest => by
    rw [depth_all, depth_all, Written.before, Written.depth, Nat.zero_max]
  | .closed head, forest => by
    rw [depth_all, Written.before, Written.depth]
    rfl
  | .element head children, forest => by
    have hchildren := depth_forestOf children
    rw [depth_all, Written.before, Written.depth, ← hchildren]
    rfl

theorem depth_forestOf : ∀ parts : List Written,
    Xml.Node.depthOfList ((forestOf documentMaker parts).all documentMaker) = depthOf parts
  | [] => rfl
  | part :: rest => by rw [forestOf, depth_before, depth_forestOf rest, depthOf]
end

theorem depth_document {page : Written} {head : Head} (hhead : page.head? = some head)
    (name : Xml.Name) (attributes : List (Xml.Name × Text)) :
    (⟨name, attributes, (forestOf documentMaker page.children).all documentMaker⟩ :
      Xml.Element).depth =
      page.depth := by
  have hdepth : (⟨name, attributes, (forestOf documentMaker page.children).all documentMaker⟩ :
      Xml.Element).depth = depthOf page.children + 1 := by
    rw [Xml.Element.depth, Xml.Element.toNode, Xml.Node.depth, depth_forestOf]
  rw [hdepth]
  cases page with
  | text content => cases hhead
  | closed _ => rfl
  | element _ children => rfl

end Visualforce.Markup
