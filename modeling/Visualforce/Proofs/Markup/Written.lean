import Visualforce.Markup.Build
import Visualforce.Proofs.Expression.Find

/-! # Written pages

A tree as it is written out: every attribute as a name and a value between double quotes, every
element either closed in its own tag or by an end tag. A plain page is one whose names are
identifiers and whose values and texts keep clear of the characters that markup gives a meaning
to.
-/
namespace Visualforce.Markup
open Expression (IsMarked)

/-- A part of a written page; an element without children may close itself. -/
inductive Written where
  | text (content : Text)
  | closed (head : Head)
  | element (head : Head) (children : List Written)

inductive Token where
  | text (content : Text)
  | opening (head : Head) (closes : Bool)
  | closing (tag : Text)

def Attribute.source (attr : Attribute) : Text :=
  ' ' :: (attr.name ++ '=' :: '"' :: (attr.value ++ ['"']))

def Head.attributeSource (head : Head) : Text := head.attributes.flatMap Attribute.source

/-- What a tag that closes itself has before its end. -/
def slash (closes : Bool) : Text := if closes then ['/'] else []

def tagEnd (closes : Bool) : Text := slash closes ++ ['>']

def Token.source : Token → Text
  | text content => content
  | opening head closes => '<' :: (head.tag ++ (head.attributeSource ++ tagEnd closes))
  | closing tag => '<' :: '/' :: (tag ++ ['>'])

mutual
def Written.tokens : Written → List Token
  | .text content => [.text content]
  | .closed head => [.opening head true]
  | .element head children => .opening head false :: (tokensOf children ++ [.closing head.tag])

def tokensOf : List Written → List Token
  | [] => []
  | part :: rest => part.tokens ++ tokensOf rest
end

theorem tokensOf_text (content : Text) (rest : List Written) :
    tokensOf (.text content :: rest) = .text content :: tokensOf rest := rfl

theorem tokensOf_closed (head : Head) (rest : List Written) :
    tokensOf (.closed head :: rest) = .opening head true :: tokensOf rest := rfl

theorem tokensOf_element (head : Head) (children rest : List Written) :
    tokensOf (.element head children :: rest) =
      .opening head false :: (tokensOf children ++ .closing head.tag :: tokensOf rest) := by
  simp [tokensOf, Written.tokens]

def Token.head? : Token → Option Head
  | .opening head _ => some head
  | _ => none

/-- The heads of all elements in the order in which they are opened. -/
def headsOf (tokens : List Token) : List Head := tokens.filterMap Token.head?

@[simp] theorem headsOf_nil : headsOf [] = [] := rfl

@[simp] theorem headsOf_text (content : Text) (tokens : List Token) :
    headsOf (.text content :: tokens) = headsOf tokens := rfl

@[simp] theorem headsOf_opening (head : Head) (closes : Bool) (tokens : List Token) :
    headsOf (.opening head closes :: tokens) = head :: headsOf tokens := rfl

@[simp] theorem headsOf_closing (tag : Text) (tokens : List Token) :
    headsOf (.closing tag :: tokens) = headsOf tokens := rfl

@[simp] theorem headsOf_append (first second : List Token) :
    headsOf (first ++ second) = headsOf first ++ headsOf second := List.filterMap_append

/-- What holds of every start tag holds of every head. -/
theorem forall_mem_headsOf {P : Head → Prop} {tokens : List Token}
    (h : ∀ head closes, Token.opening head closes ∈ tokens → P head) :
    ∀ head ∈ headsOf tokens, P head := by
  intro head hhead
  obtain ⟨token, htoken, htok⟩ := List.mem_filterMap.mp hhead
  cases token with
  | text content => cases htok
  | closing tag => cases htok
  | opening _ closes =>
    cases htok
    exact h head closes htoken

def sourceOf (tokens : List Token) : Text := tokens.flatMap Token.source

theorem sourceOf_append (first second : List Token) :
    sourceOf (first ++ second) = sourceOf first ++ sourceOf second := List.flatMap_append

def Written.source (part : Written) : Text := sourceOf part.tokens

mutual
/-- How many elements lie inside one another, this one included. -/
def Written.depth : Written → Nat
  | .text _ => 0
  | .closed _ => 1
  | .element _ children => depthOf children + 1

def depthOf : List Written → Nat
  | [] => 0
  | part :: rest => max part.depth (depthOf rest)
end

def isNamePart (c : Char) : Bool := c.isAlphanum || c == '_'

def isIdentifier : Text → Bool
  | [] => false
  | c :: rest => c.isAlpha && rest.all isNamePart

/-- A tag that is an identifier or two of them around a colon. -/
inductive IsPlainTag : Text → Prop where
  | simple {name : Text} (hname : isIdentifier name) : IsPlainTag name
  | qualified {qualifier name : Text} (hqualifier : isIdentifier qualifier)
      (hreserved : isReservedQualifier qualifier = false) (hname : isIdentifier name) :
      IsPlainTag (qualifier ++ ':' :: name)

/-- A character that no reader of markup gives a meaning to. -/
def isPlainChar (c : Char) : Bool :=
  Xml.isLegal c && 0x20 ≤ c.toNat && !"<&\"'=:>\x7b\x7d".toList.contains c

def isPlainValueChar (c : Char) : Bool := isPlainChar c || c == '>'

structure Head.IsPlain (head : Head) : Prop where
  tag : IsPlainTag head.tag
  notOpaque : ∀ name ∈ Config.standard.opaqueTags, ¬ name <+: head.tag.map Char.toLower
  names : ∀ attr ∈ head.attributes, isIdentifier attr.name ∧ attr.name ≠ "xmlns".toList
  distinct : (head.attributes.map (·.name)).Nodup
  values : ∀ attr ∈ head.attributes,
    Text.IsTrimmed attr.value ∧ IsMarked isPlainValueChar attr.value

/-- The attributes by which the root of a page names its controllers. -/
def controllerNames : List Text :=
  ["standardController", "controller", "extensions"].map String.toList

/-- A head that may stand below the root of a page. -/
structure Head.IsInner (head : Head) : Prop where
  tag : head.tag ∉ Config.standard.rootTags
  names : ∀ attr ∈ head.attributes, attr.name ∉ controllerNames

mutual
def Written.IsPlain : Written → Prop
  | .text content => IsMarked isPlainChar content
  | .closed head => head.IsPlain ∧ head.IsInner
  | .element head children => head.IsPlain ∧ head.IsInner ∧ ArePlain children

def ArePlain : List Written → Prop
  | [] => True
  | part :: rest => part.IsPlain ∧ ArePlain rest
end

def Written.head? : Written → Option Head
  | .text _ => none
  | .closed head => some head
  | .element head _ => some head

def Written.children : Written → List Written
  | .text _ => []
  | .closed _ => []
  | .element _ children => children

def pageRoot : Text := "apex:page".toList

structure Written.IsPlainPage (page : Written) : Prop where
  root : ∃ head, page.head? = some head ∧ head.tag = pageRoot ∧ head.IsPlain
  inner : ArePlain page.children
  depth : page.depth ≤ depthLimit

end Visualforce.Markup
