import Visualforce.Markup.Opaque
import Visualforce.Markup.Entity

/-! # Normal markup

Page markup is written loosely. Outside sections every attribute is given a quoted value, named
characters become numbers and an ampersand that begins no reference is escaped.
-/
namespace Visualforce.Markup
open Pattern

inductive TagPart where
  | tag
  | attributes
  | closing
  | name
  | value
deriving DecidableEq

def isTagNameStart (c : Char) : Bool := c.isAlpha || c == '_'

def isTagNameChar (c : Char) : Bool := Text.isWord c || c == ':' || c == '.' || c == '-'

def tagName {κ : Type} : Pattern κ := one isTagNameStart ++ star (one isTagNameChar)

def isLooseNameChar (c : Char) : Bool := !Text.isBlank c && !"=/>\"'".toList.contains c

def isLooseValueChar (c : Char) : Bool := !Text.isBlank c && !"\"'=<>`".toList.contains c

def looseValue {κ : Type} : Pattern κ :=
  firstOf [quotedWith '"', quotedWith '\'', plus (one isLooseValueChar)]

def looseAttribute : Pattern TagPart :=
  group .name (plus (one isLooseNameChar)) ++ maybe (equalsSign ++ group .value looseValue)

def startTagPattern : Pattern TagPart :=
  char '<' ++ group .tag tagName ++ group .attributes (star (plus blank ++ looseAttribute)) ++
    star blank ++ group .closing (maybe (char '/')) ++ char '>'

def escapeOpenings (value : Text) : Text :=
  value.flatMap fun c => if c == '<' then "&lt;".toList else [c]

/-- A value without its quotes, if it has any. -/
def bareValue (raw : Text) : Text :=
  if raw.head?.any fun c => c == '"' || c == '\'' then (raw.drop 1).dropLast else raw

/-- Quotes a value with the double quote unless it holds one. -/
def writeAttribute (name value : Text) : Text :=
  let quote := if value.contains '"' then '\'' else '"'
  ' ' :: name ++ '=' :: quote :: escapeOpenings value ++ [quote]

def normalAttribute? (allowBoolean : Bool) (hit : Hit TagPart) : Option Text :=
  match hit.group? .value with
  | some raw => some (writeAttribute (hit.group .name) (bareValue raw))
  | none => if allowBoolean then some (writeAttribute (hit.group .name) "true".toList) else none

def normalStartTag (allowBoolean : Bool) (hit : Hit TagPart) : Text :=
  let attributes := hit.group .attributes
  if Text.isBlankText attributes then hit.text
  else
    match (looseAttribute.hits attributes).mapM (normalAttribute? allowBoolean) with
    | some written => '<' :: hit.group .tag ++ written.flatten ++ hit.group .closing ++ ['>']
    | none => hit.text

def entityName {κ : Type} : Pattern κ := one Char.isAlpha ++ star (one Char.isAlphanum)

def namedReference : Pattern Unit := char '&' ++ group () entityName ++ char ';'

def strictEntities : List Text := ["amp", "lt", "gt", "quot", "apos"].map String.toList

/-- The five entities that markup knows by itself stay, and so do unknown names. -/
def numberedReference (hit : Hit Unit) : Text :=
  if strictEntities.contains (hit.group ()) then hit.text
  else
    match codePoint? (hit.group ()) with
    | some n => "&#".toList ++ n.repr.toList ++ [';']
    | none => hit.text

def isHexadecimal (c : Char) : Bool :=
  c.isDigit || ('a' ≤ c && c ≤ 'f') || ('A' ≤ c && c ≤ 'F')

def afterAmpersand : Pattern Unit :=
  firstOf [char '#' ++ plus (one Text.isDecimalDigit), literal "#x" ++ plus (one isHexadecimal),
    entityName] ++ char ';'

def looseAmpersand : Pattern Unit := char '&' ++ notAhead afterAmpersand

/-- A stretch of markup without sections in normal form. -/
def normalize (allowBoolean : Bool) (text : Text) : Text :=
  looseAmpersand.replace (fun _ => "&amp;".toList)
    (namedReference.replace numberedReference
      (startTagPattern.replace (normalStartTag allowBoolean) text))

def sectionPattern : Pattern Unit :=
  literal "<![CDATA[" ++ starLazy anyChar ++ literal "]]>"

/-- Changes what lies before, between and after the matches of a pattern. -/
def changeBetween (pattern : Pattern Unit) (change : Text → Text) (text : Text) : Text :=
  let (gap, done) := (pattern.pieces text).foldr (fun piece (gap, done) =>
    match piece with
    | .plain c => (c :: gap, done)
    | .matched hit => ([], hit.text ++ change gap ++ done)) (([], []) : Text × Text)
  change gap ++ done

def normalizeOutsideSections (allowBoolean : Bool) (text : Text) : Text :=
  changeBetween sectionPattern (normalize allowBoolean) text

end Visualforce.Markup
