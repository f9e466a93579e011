import Visualforce.Markup.Normal
import Visualforce.Xml.Name

/-! # Namespaces of pages

Pages use prefixes such as `apex:` without declaring them. Each one that is missing is declared at
the root tag, and expanded names are turned back into prefixed ones by the declarations in the
text.
-/
namespace Visualforce.Markup
open Pattern

inductive DeclarationPart where
  | name
  | space
deriving DecidableEq

def isQualifierChar (c : Char) : Bool := Text.isWord c || c == '.' || c == '-'

def qualifier {κ : Type} : Pattern κ := one isTagNameStart ++ star (one isQualifierChar)

def namespaceDeclaration : Pattern DeclarationPart :=
  wordEdge ++ literal "xmlns" ++ maybe (char ':' ++ group .name (plus (one isQualifierChar))) ++
    equalsSign ++ quoteMark ++ group .space (star (noneOf "\"'")) ++ quoteMark

/-- Declared qualifiers with their namespaces in the order written; the default one is empty. -/
def declarations (text : Text) : List (Text × Text) :=
  (namespaceDeclaration.hits text).map fun hit => (hit.group .name, hit.group .space)

def tagQualifier : Pattern Unit :=
  char '<' ++ maybe (char '/') ++ group () qualifier ++ char ':' ++ one isTagNameStart

def attributeQualifier : Pattern Unit :=
  blank ++ group () qualifier ++ char ':' ++ plus (one isQualifierChar) ++ star blank ++ char '='

def isReservedQualifier (name : Text) : Bool :=
  ["xml".toList, "xmlns".toList].contains (name.map Char.toLower)

def undeclared (text : Text) : List Text :=
  let declared := (declarations text).map (·.1)
  (dedupe (tagQualifier.findAll () text ++ attributeQualifier.findAll () text)).filter
    fun name => !declared.contains name && !isReservedQualifier name

/-- A comment, an instruction, a declaration, or the opening of a tag, which alone is captured. -/
def prologOrTag : Pattern Unit :=
  firstOf [commentPattern, literal "<?" ++ starLazy anyChar ++ literal "?>",
    literal "<!" ++ star (noneOf ">") ++ char '>', group () (char '<' ++ tagName)]

/-- The place just after the name of the root tag. -/
def rootTagEnd? (text : Text) : Option Cursor :=
  ((prologOrTag.hits text).find? fun hit => (hit.group? ()).isSome).map (·.stop)

def writeDeclaration (name : Text) : Text :=
  " xmlns:".toList ++ name ++ "=\"urn:".toList ++ name ++ ['"']

def declareQualifiers (text : Text) : Text :=
  let missing := undeclared text
  if missing.isEmpty then text
  else
    match rootTagEnd? text with
    | none => text
    | some place =>
      text.take (text.length - place.left) ++ missing.flatMap writeDeclaration ++ place.rest

/-- A name with the qualifier that was declared last for its namespace, if that is not empty. -/
def qualify (declared : List (Text × Text)) (name : Xml.Name) : Text :=
  match name.space with
  | none => name.base
  | some space =>
    match declared.reverse.find? (·.2 == space) with
    | some (qualifier, _) =>
      if qualifier.isEmpty then name.base else qualifier ++ ':' :: name.base
    | none => name.base

end Visualforce.Markup
