import Visualforce.Xml.Mark

/-! # The prolog

What may stand before the root element: an XML declaration at the very start, space, comments,
instructions, and one document type declaration. Of the latter only the general entities with a text
of their own are kept, and whether there is an external part. That is a limit of this reader: the
text of an entity is inserted as characters, so markup in it does not become elements, and the
default values of declared attributes are not added to any element.
-/
namespace Visualforce.Xml

structure Setting where
  name : Text
  namePlace : Text
  value : Text
  valuePlace : Text

def isSettingChar (c : Char) : Bool := c.isAlphanum || c == '.' || c == '-' || c == '_'

def isSettingNameEnd (c : Char) : Bool := c == '=' || isSpace c || 0x80 ≤ c.toNat

/-- The next setting of a declaration, none at its end. An error is the place that is wrong. -/
def setting (text : Text) : Except Text (Option Setting × Text) :=
  if text.isEmpty then .ok (none, text)
  else if !text.head?.any isSpace then .error text
  else
    let place := skipSpace text
    if place.isEmpty then .ok (none, text)
    else
      let name := place.takeWhile (!isSettingNameEnd ·)
      let ended := place.dropWhile (!isSettingNameEnd ·)
      match skipSpace ended with
      | '=' :: rest =>
        if name.isEmpty then .error ended
        else
          match skipSpace rest with
          | quote :: valuePlace =>
            if quote == '"' || quote == '\'' then
              match valuePlace.dropWhile isSettingChar with
              | c :: after =>
                if c == quote then
                  .ok (some ⟨name, place, valuePlace.takeWhile isSettingChar, valuePlace⟩, after)
                else .error (c :: after)
              | [] => .error []
            else .error (quote :: valuePlace)
          | [] => .error []
      | wrong => .error wrong

/-- What follows the version, and then the encoding, is optional. The answer is whether the document
declares that it stands alone. -/
def declaredStandalone (body : Text) : Except Text Bool := do
  match ← setting body with
  | (none, rest) => .error rest
  | (some version, rest) =>
    if version.name != "version".toList then .error version.namePlace
    else
      match ← setting rest with
      | (none, _) => return false
      | (some second, rest) =>
        if second.name == "encoding".toList then
          if !second.value.head?.any Char.isAlpha then .error second.valuePlace
          else
            match ← setting rest with
            | (none, _) => return false
            | (some third, rest) => standalone third rest
        else standalone second rest
where
  standalone (last : Setting) (rest : Text) : Except Text Bool :=
    if last.name != "standalone".toList then .error last.namePlace
    else if last.value != "yes".toList && last.value != "no".toList then .error last.valuePlace
    else if (skipSpace rest).isEmpty then .ok (last.value == "yes".toList)
    else .error (skipSpace rest)

structure Doctype where
  declared : List (Text × Text)
  external : Bool

def nextMark (text : Text) : Except Fault (Mark × Text × Text) :=
  let place := skipSpace text
  if place.isEmpty then fail .noElement []
  else do
    let (found, rest) ← mark place
    return (found, place, rest)

def isPublicIdChar (c : Char) : Bool :=
  c.isAlphanum || c == '\n' || c == '\r' || " -'()+,./:=?;!*#@$_%".toList.contains c

def identifier (isPublic : Bool) (text : Text) : Except Fault Text := do
  match ← nextMark text with
  | (.literal content, place, rest) =>
    if isPublic && !content.all isPublicIdChar then
      fail .badPublicId ((place.drop 1).dropWhile isPublicIdChar)
    else return rest
  | (found, place, _) => found.misplaced place

/-- What follows the end of a declaration whose content does not matter. -/
def skipDeclaration : Nat → Text → Except Fault Text
  | 0, text => fail .noElement text
  | fuel + 1, text => do
    match ← nextMark text with
    | (.close, _, rest) => return rest
    | (.element, place, _) => fail .badSyntax place
    | (.declaration _, place, _) => fail .badSyntax place
    | (.xmlDeclaration _, place, _) => fail .misplacedDeclaration place
    | (_, _, rest) => skipDeclaration fuel rest

/-- The text that an entity stands for, with its lines ended by line feeds; none when a reference in
it leads nowhere. -/
def entityText (declared : List (Text × Text)) : Nat → Text → Option Text
  | 0, _ => none
  | _ + 1, [] => some []
  | fuel + 1, '&' :: rest =>
    match reference rest rest with
    | .ok (.number (some c), after) => (entityText declared fuel after).map (c :: ·)
    | .ok (.entity name, after) => do
      let text ← (Entities.mk declared false).lookup? name
      return text ++ (← entityText declared fuel after)
    | _ => none
  | fuel + 1, '\r' :: '\n' :: rest => (entityText declared fuel rest).map ('\n' :: ·)
  | fuel + 1, c :: rest => (entityText declared fuel rest).map
      ((if c == '\r' then '\n' else c) :: ·)

/-- Adds an entity unless its name is taken. -/
def declareEntity (declared : List (Text × Text)) (name value : Text) : List (Text × Text) :=
  match entityText declared (value.length + 1) value with
  | some text => declared ++ [(name, text)]
  | none => declared

/-- An entity declaration, from just after its keyword. -/
def entityDeclaration (declared : List (Text × Text)) (text : Text) :
    Except Fault (List (Text × Text) × Text) := do
  match ← nextMark text with
  | (.name name, _, rest) =>
    match ← nextMark rest with
    | (.literal value, _, rest) =>
      match ← nextMark rest with
      | (.close, _, rest) => return (declareEntity declared name value, rest)
      | (found, place, _) => found.misplaced place
    | (.name _, _, rest) => return (declared, ← skipDeclaration rest.length rest)
    | (found, place, _) => found.misplaced place
  | (.other, _, rest) => return (declared, ← skipDeclaration rest.length rest)
  | (found, place, _) => found.misplaced place

/-- The declarations between brackets, up to the end of the document type. -/
def internalSubset (external : Bool) :
    Nat → List (Text × Text) → Text → Except Fault (Doctype × Text)
  | 0, _, text => fail .noElement text
  | fuel + 1, declared, text => do
    match ← nextMark text with
    | (.comment, _, rest) => internalSubset external fuel declared rest
    | (.instruction, _, rest) => internalSubset external fuel declared rest
    | (.parameter, _, rest) => internalSubset true fuel declared rest
    | (.declaration keyword, place, rest) =>
      if keyword == "ENTITY".toList then
        let (declared, rest) ← entityDeclaration declared rest
        internalSubset external fuel declared rest
      else if ["ELEMENT".toList, "ATTLIST".toList, "NOTATION".toList].contains keyword then
        let rest ← skipDeclaration rest.length rest
        internalSubset external fuel declared rest
      else fail .badSyntax place
    | (.closeBracket, _, rest) =>
      match ← nextMark rest with
      | (.close, _, rest) => return (⟨declared, external⟩, rest)
      | (found, place, _) => found.misplaced place
    | (found, place, _) => found.misplaced place

def doctypeEnd (external : Bool) (text : Text) : Except Fault (Doctype × Text) := do
  match ← nextMark text with
  | (.openBracket, _, rest) => internalSubset external (rest.length + 1) [] rest
  | (.close, _, rest) => return (⟨[], external⟩, rest)
  | (found, place, _) => found.misplaced place

/-- A document type declaration, from just after its keyword. -/
def doctype (text : Text) : Except Fault (Doctype × Text) := do
  match ← nextMark text with
  | (.name _, _, rest) =>
    match ← nextMark rest with
    | (.name keyword, place, after) =>
      if keyword == "SYSTEM".toList then doctypeEnd true (← identifier false after)
      else if keyword == "PUBLIC".toList then
        doctypeEnd true (← identifier false (← identifier true after))
      else fail .badSyntax place
    | _ => doctypeEnd false rest
  | (found, place, _) => found.misplaced place

/-- What the prolog settles. -/
structure Setup where
  standalone : Bool
  doctype : Option Doctype

def Setup.entities (setup : Setup) : Entities :=
  match setup.doctype with
  | none => ⟨[], false⟩
  | some doctype => ⟨doctype.declared, doctype.external && !setup.standalone⟩

/-- Reads marks up to the root element and answers with the text from there. -/
def prologFrom : Nat → Bool → Setup → Text → Except Fault (Setup × Text)
  | 0, _, _, _ => fail .noElement []
  | _ + 1, _, _, [] => fail .noElement []
  | fuel + 1, isFirst, setup, text => do
    let (found, rest) ← mark text
    match found with
    | .space => prologFrom fuel false setup rest
    | .comment => prologFrom fuel false setup rest
    | .instruction => prologFrom fuel false setup rest
    | .xmlDeclaration body =>
      if isFirst then
        match declaredStandalone body with
        | .ok standalone => prologFrom fuel false { setup with standalone } rest
        | .error place => fail .badDeclaration (place ++ '?' :: '>' :: rest)
      else found.misplaced text
    | .element => return (setup, text)
    | .declaration keyword =>
      if keyword == "DOCTYPE".toList && setup.doctype.isNone then
        let (doctype, rest) ← doctype rest
        prologFrom fuel false { setup with doctype := some doctype } rest
      else fail .badSyntax text
    | found => found.misplaced text

def prolog (text : Text) : Except Fault (Setup × Text) :=
  prologFrom (text.length + 1) true ⟨false, none⟩ text

/-- After the root element only space, comments and instructions may stand. -/
def epilog : Nat → Text → Except Fault Unit
  | 0, _ => .ok ()
  | _ + 1, [] => .ok ()
  | fuel + 1, text => do
    let (found, rest) ← mark text
    match found with
    | .space => epilog fuel rest
    | .comment => epilog fuel rest
    | .instruction => epilog fuel rest
    | _ => fail .junkAfterRoot text

end Visualforce.Xml
