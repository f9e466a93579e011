import Visualforce.Proofs.Markup.ClearBuild

/-! # Rendering trees

A tree is rendered as markup without any declaration: names as they are, values and texts with the
characters that markup gives a meaning to as references. Building the rendering of a tree gives the
tree back.
-/
namespace Visualforce.Markup

variable {closes : Head → Bool}

def Attribute.render (attr : Attribute) : Text :=
  ' ' :: (attr.name ++ '=' :: '"' :: (escape attr.value ++ ['"']))

def Head.render (head : Head) (closes : Bool) : Text :=
  '<' :: (head.tag ++ (head.attributes.flatMap Attribute.render ++ tagEnd closes))

mutual
/-- Among the elements without children those that are chosen close themselves. -/
def Node.render (closes : Head → Bool) : Node → Text
  | .text content => escape content
  | .element head children =>
    if closes head && children.isEmpty then head.render true
    else head.render false ++ (renderAll closes children ++ '<' :: '/' :: (head.tag ++ ['>']))

def renderAll (closes : Head → Bool) : List Node → Text
  | [] => []
  | node :: rest => node.render closes ++ renderAll closes rest
end

def Element.render (closes : Head → Bool) (tree : Element) : Text := tree.toNode.render closes

def isAsciiPartChar (c : Char) : Bool := c.isAlphanum || "_.-".toList.contains c

def isAsciiPart : Text → Bool
  | [] => false
  | c :: rest => isTagNameStart c && rest.all isAsciiPartChar

/-- A text without the word of a declaration. -/
def IsFree (text : Text) : Prop := ¬ "xmlns".toList <:+: text

instance (text : Text) : Decidable (IsFree text) := inferInstanceAs (Decidable (¬ _))

inductive IsAsciiName : Text → Prop where
  | simple {base : Text} (hbase : isAsciiPart base) : IsAsciiName base
  | qualified {qualifier base : Text} (hqualifier : isAsciiPart qualifier)
      (hreserved : isReservedQualifier qualifier = false) (hbase : isAsciiPart base) :
      IsAsciiName (qualifier ++ ':' :: base)

/-- A text that can be a value or a content: its characters are legal in documents, none is a colon,
and it does not hold the word of a declaration. -/
structure IsRenderableText (text : Text) : Prop where
  legal : ∀ c ∈ text, Xml.isLegal c
  colon : ':' ∉ text
  free : IsFree text

structure Head.IsRenderable (head : Head) : Prop where
  tag : IsAsciiName head.tag ∧ IsFree head.tag
  notOpaque : ∀ name ∈ Config.standard.opaqueTags, ¬ name <+: head.tag.map Char.toLower
  names : ∀ attr ∈ head.attributes, IsAsciiName attr.name ∧ IsFree attr.name
  distinct : (head.attributes.map (·.name)).Nodup
  values : ∀ attr ∈ head.attributes, Text.IsTrimmed attr.value ∧ IsRenderableText attr.value

def Node.isText : Node → Bool
  | .text _ => true
  | .element .. => false

mutual
def Node.IsRenderable : Node → Prop
  | .text content =>
    Text.isBlankText content = false ∧ Text.IsTrimmed content ∧ IsRenderableText content
  | .element head children => head.IsRenderable ∧ AreRenderable children

/-- No two texts are neighbours. -/
def AreRenderable : List Node → Prop
  | [] => True
  | node :: rest =>
    node.IsRenderable ∧ (node.isText → rest.head?.any Node.isText = false) ∧ AreRenderable rest
end

mutual
/-- How many elements lie inside one another, this one included. -/
def Node.depth : Node → Nat
  | .text _ => 0
  | .element _ children => depthIn children + 1

def depthIn : List Node → Nat
  | [] => 0
  | node :: rest => max node.depth (depthIn rest)
end

structure Element.IsRenderable (tree : Element) : Prop where
  root : tree.head.tag ∈ Config.standard.rootTags
  node : tree.toNode.IsRenderable
  depth : tree.toNode.depth ≤ depthLimit

mutual
/-- A tree as a page that is still to be encoded. -/
def Node.written (closes : Head → Bool) : Node → Written
  | .text content => .text content
  | .element head children =>
    if closes head && children.isEmpty then .closed head
      else .element head (writtenAll closes children)

def writtenAll (closes : Head → Bool) : List Node → List Written
  | [] => []
  | node :: rest => node.written closes :: writtenAll closes rest
end

theorem attributeSource_encoded (head : Head) :
    (head.encoded escape).attributeSource = head.attributes.flatMap Attribute.render := by
  rw [Head.attributeSource, Head.encoded, List.flatMap_map]
  rfl

theorem render_eq_source (head : Head) (closes : Bool) :
    head.render closes = ((Token.opening head closes).encoded escape).source := by
  rw [Head.render, ← attributeSource_encoded]
  rfl

mutual
theorem Node.render_eq : ∀ node : Node,
    node.render closes = Xml.encodedSource escape (node.written closes).tokens
  | .text content => by simp [Node.render, Node.written, Written.tokens, Token.encoded,
      Token.source]
  | .element head children => by
    rw [Node.render, Node.written]
    split_ifs
    · simp [Written.tokens, render_eq_source]
    · rw [renderAll_eq children, render_eq_source]
      simp [Written.tokens, Token.encoded, Token.source]

theorem renderAll_eq : ∀ nodes : List Node,
    renderAll closes nodes = Xml.encodedSource escape (tokensOf (writtenAll closes nodes))
  | [] => rfl
  | node :: rest => by
    rw [renderAll, writtenAll, tokensOf, Xml.encodedSource_append, Node.render_eq node,
      renderAll_eq rest]
end

mutual
theorem Node.depth_written : ∀ node : Node, (node.written closes).depth = node.depth
  | .text content => rfl
  | .element head children => by
    rw [Node.written, Node.depth]
    split_ifs with h
    · rw [Bool.and_eq_true, List.isEmpty_iff] at h
      rw [h.2]
      rfl
    · rw [Written.depth, depth_writtenAll children]

theorem depth_writtenAll : ∀ nodes : List Node, depthOf (writtenAll closes nodes) = depthIn nodes
  | [] => rfl
  | node :: rest => by
    rw [writtenAll, depthOf, Node.depth_written node, depth_writtenAll rest, depthIn]
end

def splitFront : List Node → Forest Node
  | .text content :: rest => ⟨content, rest⟩
  | nodes => ⟨[], nodes⟩

theorem all_splitFront {nodes : List Node} (h : AreRenderable nodes) :
    (splitFront nodes).all treeMaker = nodes := by
  cases nodes with
  | nil => rfl
  | cons node rest =>
    cases node with
    | text content =>
      obtain ⟨⟨hblank, htrimmed, -⟩, -⟩ := h
      have htrim : Text.trim content = content := htrimmed
      simp [splitFront, Forest.all, treeMaker, hblank, htrim]
    | element head children => rfl

theorem splitFront_of_isText {nodes : List Node} (h : nodes.head?.any Node.isText = false) :
    splitFront nodes = ⟨[], nodes⟩ := by
  cases nodes with
  | nil => rfl
  | cons node rest =>
    cases node with
    | text content => cases h
    | element head children => rfl

mutual
theorem Node.before_written : ∀ (node : Node) (rest : List Node), AreRenderable (node :: rest) →
    (node.written closes).before treeMaker (splitFront rest) = splitFront (node :: rest)
  | .text content, rest, h => by
    rw [Node.written, Written.before, splitFront_of_isText (h.2.1 rfl), List.append_nil]
    rfl
  | .element head children, rest, h => by
    have hrest := all_splitFront h.2.2
    have hchildren := all_splitFront h.1.2
    rw [Node.written]
    split_ifs with hempty
    · rw [Bool.and_eq_true, List.isEmpty_iff] at hempty
      rw [Written.before, hrest, hempty.2]
      rfl
    · rw [Written.before, forestOf_writtenAll children h.1.2, hchildren, hrest]
      rfl

theorem forestOf_writtenAll : ∀ nodes : List Node, AreRenderable nodes →
    forestOf treeMaker (writtenAll closes nodes) = splitFront nodes
  | [], _ => rfl
  | node :: rest, h => by
    rw [writtenAll, forestOf, forestOf_writtenAll rest h.2.2, Node.before_written node rest h]
end

theorem nodesOf_writtenAll {nodes : List Node} (h : AreRenderable nodes) :
    nodesOf (writtenAll closes nodes) = nodes := by
  rw [nodesOf, forestOf_writtenAll nodes h, all_splitFront h]

end Visualforce.Markup
