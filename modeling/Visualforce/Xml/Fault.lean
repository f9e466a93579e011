import Visualforce.Xml.Character

/-! # Faults of a document

A fault keeps the part of the document that begins at the offending place. Its line and column
follow from what lies before that part.
-/
namespace Visualforce.Xml

inductive Reason where
  | noElement
  | badSyntax
  | badToken
  | unclosedToken
  | unclosedSection
  | mismatchedTag
  | duplicateAttribute
  | junkAfterRoot
  | undefinedEntity
  | skippedEntity (name : Text)
  | badCharacterNumber
  | unboundQualifier
  | undeclaredQualifier
  | reservedXml
  | reservedXmlns
  | reservedSpace
  | badDeclaration
  | misplacedDeclaration
  | badPublicId
  | parameterEntity
deriving DecidableEq, Repr

def Reason.message : Reason → Text
  | noElement => "no element found".toList
  | badSyntax => "syntax error".toList
  | badToken => "not well-formed (invalid token)".toList
  | unclosedToken => "unclosed token".toList
  | unclosedSection => "unclosed CDATA section".toList
  | mismatchedTag => "mismatched tag".toList
  | duplicateAttribute => "duplicate attribute".toList
  | junkAfterRoot => "junk after document element".toList
  | undefinedEntity => "undefined entity".toList
  | skippedEntity name => "undefined entity &".toList ++ name ++ [';']
  | badCharacterNumber => "reference to invalid character number".toList
  | unboundQualifier => "unbound prefix".toList
  | undeclaredQualifier => "must not undeclare prefix".toList
  | reservedXml =>
    "reserved prefix (xml) must not be undeclared or bound to another namespace name".toList
  | reservedXmlns => "reserved prefix (xmlns) must not be declared or undeclared".toList
  | reservedSpace => "prefix must not be bound to one of the reserved namespace names".toList
  | badDeclaration => "XML declaration not well-formed".toList
  | misplacedDeclaration => "XML or text declaration not at start of entity".toList
  | badPublicId => "illegal character(s) in public id".toList
  | parameterEntity => "illegal parameter entity reference".toList

structure Fault where
  reason : Reason
  rest : Text
deriving DecidableEq, Repr

/-- A line counted from one and a column counted from nought. -/
structure Position where
  line : Nat
  column : Nat
deriving DecidableEq, Repr

/-- The position after `text`: lines end at a line feed, a carriage return or both together. -/
def Position.after : Position → Text → Position
  | here, [] => here
  | here, '\r' :: '\n' :: rest => Position.after ⟨here.line + 1, 0⟩ rest
  | here, c :: rest =>
    Position.after (if c == '\n' || c == '\r' then ⟨here.line + 1, 0⟩
      else ⟨here.line, here.column + 1⟩) rest

def Fault.position (fault : Fault) (document : Text) : Position :=
  Position.after ⟨1, 0⟩ (document.take (document.length - fault.rest.length))

def natText (n : Nat) : Text := n.repr.toList

/-- The wording of a fault in the given document. -/
def Fault.message (fault : Fault) (document : Text) : Text :=
  let place := fault.position document
  fault.reason.message ++ ": line ".toList ++ natText place.line ++ ", column ".toList ++
    natText place.column

def fail {α : Type} (reason : Reason) (rest : Text) : Except Fault α := .error ⟨reason, rest⟩

/-- At the end of the text the token that began at `opening` is unclosed, anywhere else the next
character is one that cannot continue it. -/
def refuse {α : Type} (opening rest : Text) : Except Fault α :=
  if rest.isEmpty then fail .unclosedToken opening else fail .badToken rest

def skipSpace (text : Text) : Text := text.dropWhile isSpace

end Visualforce.Xml
