import Visualforce.Text.Basic

/-! # Markup trees

A tree of tagged elements and runs of text. The tag of an element may have a namespace, written
before the first colon.
-/
namespace Visualforce.Markup

structure Attribute where
  name : Text
  value : Text
deriving DecidableEq, Repr

/-- The tag of an element and its attributes in the order written. -/
structure Head where
  tag : Text
  attributes : List Attribute
deriving DecidableEq, Repr

inductive Node where
  | text (content : Text)
  | element (head : Head) (children : List Node)

structure Element where
  head : Head
  children : List Node

def Element.toNode (element : Element) : Node := .element element.head element.children

namespace Head

def namespace? (head : Head) : Option Text :=
  if head.tag.contains ':' then some (head.tag.takeWhile (· != ':')) else none

/-- What follows the first colon, or the whole tag. -/
def name (head : Head) : Text :=
  if head.tag.contains ':' then (head.tag.dropWhile (· != ':')).drop 1 else head.tag

def isNamespaced (head : Head) : Bool :=
  head.namespace?.any (!·.isEmpty) && !head.name.isEmpty

def get? (head : Head) (name : Text) : Option Text :=
  (head.attributes.find? (·.name == name)).map (·.value)

end Head

/-- Attribute values by name. A repeated name keeps its first place and takes the last value. -/
abbrev AttributeMap := List (Text × Text)

def AttributeMap.insert (map : AttributeMap) (name value : Text) : AttributeMap :=
  if map.any (·.1 == name) then map.map fun entry => if entry.1 == name then (name, value)
    else entry
  else map ++ [(name, value)]

def AttributeMap.ofPairs (pairs : List (Text × Text)) : AttributeMap :=
  pairs.foldl (fun map pair => AttributeMap.insert map pair.1 pair.2) []

def AttributeMap.get? (map : AttributeMap) (name : Text) : Option Text := map.lookup name

def Head.attributeMap (head : Head) : AttributeMap :=
  .ofPairs (head.attributes.map fun a => (a.name, a.value))

def Node.text? : Node → Option Text
  | .text content => some content
  | .element .. => none

def Node.tag? : Node → Option Text
  | .text _ => none
  | .element head _ => some head.tag

end Visualforce.Markup
