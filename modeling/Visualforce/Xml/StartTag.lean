import Visualforce.Xml.Reference

/-! # Start tags

A start tag is first scanned as written: its name, its attributes and whether it closes itself. Only
then are attribute values resolved, so a fault in the writing of a tag comes before a fault in a
value.
-/
namespace Visualforce.Xml

/-- A character of an attribute value, or a reference with the place of its `&`. -/
inductive ValuePart where
  | char (c : Char)
  | reference (ref : Reference) (place : Text)

structure WrittenAttribute where
  name : WrittenName
  value : List ValuePart
  place : Text

structure StartTag where
  name : WrittenName
  attributes : List WrittenAttribute
  closed : Bool

/-- A value up to its closing quote. Every line end and every tab in it is read as one space. -/
def attributeValue (opening : Text) (quote : Char) :
    Nat → List ValuePart → Text → Except Fault (List ValuePart × Text)
  | 0, _, rest => refuse opening rest
  | _ + 1, _, [] => fail .unclosedToken opening
  | fuel + 1, parts, c :: rest =>
    if c == quote then .ok (parts.reverse, rest)
    else if c == '<' || !isLegal c then fail .badToken (c :: rest)
    else if c == '&' then do
      let (ref, after) ← reference opening rest
      attributeValue opening quote fuel (.reference ref (c :: rest) :: parts) after
    else if c == '\r' then
      attributeValue opening quote fuel (.char ' ' :: parts)
        (match rest with
        | '\n' :: after => after
        | after => after)
    else attributeValue opening quote fuel (.char (if isSpace c then ' ' else c) :: parts) rest

/-- A name, an equals sign and a quoted value. -/
def writtenAttribute (opening text : Text) : Except Fault (WrittenAttribute × Text) := do
  let (name, rest) ← writtenName opening text
  match skipSpace rest with
  | '=' :: rest =>
    match skipSpace rest with
    | quote :: rest =>
      if quote == '"' || quote == '\'' then
        let (value, rest) ← attributeValue opening quote (rest.length + 1) [] rest
        return (⟨name, value, text⟩, rest)
      else refuse opening (quote :: rest)
    | [] => refuse opening []
  | rest => refuse opening rest

/-- The attributes and the end of a tag. An attribute needs a space before it. -/
def tagRest (opening : Text) (name : WrittenName) :
    Nat → List WrittenAttribute → Text → Except Fault (StartTag × Text)
  | 0, _, rest => refuse opening rest
  | fuel + 1, attributes, text =>
    match skipSpace text with
    | [] => fail .unclosedToken opening
    | '>' :: rest => .ok (⟨name, attributes.reverse, false⟩, rest)
    | '/' :: '>' :: rest => .ok (⟨name, attributes.reverse, true⟩, rest)
    | '/' :: rest => refuse opening rest
    | c :: rest =>
      if isNameStart c && text.head?.any isSpace then do
        let (attr, rest) ← writtenAttribute opening (c :: rest)
        tagRest opening name fuel (attr :: attributes) rest
      else fail .badToken (c :: rest)

/-- A start tag, from just after its `<`. -/
def startTag (opening text : Text) : Except Fault (StartTag × Text) := do
  let (name, rest) ← writtenName opening text
  tagRest opening name (rest.length + 1) [] rest

/-- The text of a value. An entity that is not known is an error, or is left out when the entities
are tolerant. -/
def resolveValue (entities : Entities) (opening : Text) (value : List ValuePart) :
    Except Fault Text := do
  let parts ← value.mapM fun part =>
    match part with
    | .char c => .ok [c]
    | .reference (.number (some c)) _ => .ok [c]
    | .reference (.number none) place => fail .badCharacterNumber place
    | .reference (.entity name) _ =>
      match entities.lookup? name with
      | some text => .ok (text.map fun c => if isSpace c then ' ' else c)
      | none => if entities.tolerant then .ok [] else fail .undefinedEntity opening
  return parts.flatten

end Visualforce.Xml
