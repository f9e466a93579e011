import Visualforce.Pattern.Scan
import Visualforce.Markup.Tree

/-! # Spellings of markup

Patterns for pieces of raw markup that several readers share, and the attributes written inside a
tag.
-/
namespace Visualforce.Markup
open Pattern

variable {κ : Type}

def quotedWith (quote : Char) : Pattern κ := char quote ++ star (one (· != quote)) ++ char quote

/-- A quoted text or any character that does not end the tag. -/
def tagItem : Pattern κ := firstOf [noneOf ">\"'", quotedWith '"', quotedWith '\'']

def notAhead (pattern : Pattern Unit) : Pattern κ := guard fun here => (pattern.matchAt here).isNone

def equalsSign : Pattern κ := star blank ++ char '=' ++ star blank

def quoteMark : Pattern κ := oneOf "\"'"

inductive AttributePart where
  | name
  | value
deriving DecidableEq

/-- A value between equal quotes, captured without them. -/
def quotedValue (key : κ) : Pattern κ :=
  alt (char '"' ++ group key (star (noneOf "\"")) ++ char '"')
    (char '\'' ++ group key (star (noneOf "'")) ++ char '\'')

def attributePair : Pattern AttributePart :=
  group .name (plus (one fun c => Text.isWord c || c == ':' || c == '.' || c == '-')) ++
    equalsSign ++ quotedValue .value

def attributesIn (text : Text) : AttributeMap :=
  .ofPairs ((attributePair.hits text).map fun hit => (hit.group .name, hit.group .value))

end Visualforce.Markup
