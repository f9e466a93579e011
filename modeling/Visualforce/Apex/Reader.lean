import Visualforce.Apex.Brace
import Visualforce.Apex.Class
import Visualforce.Apex.Doc
import Visualforce.Markup.Spelling

/-! # Reading classes

The source of a class is searched for declarations. The bodies of inner classes are read on their
own and blanked out before the members of the outer class are looked for.
-/
namespace Visualforce.Apex
open Pattern

variable {κ : Type}

inductive MemberPart where
  | doc
  | annotations
  | visibility
  | modifiers
  | type
  | name
  | parameters
deriving DecidableEq

def keyword (names : List String) : Pattern κ := firstOf (names.map anyCase)

def blanks : Pattern κ := plus blank

def notClosing : Pattern κ := Markup.notAhead (literal "*/") ++ anyChar

def docComment : Pattern κ := literal "/**" ++ star notClosing ++ literal "*/"

def annotation : Pattern κ :=
  char '@' ++ plus wordChar ++ maybe (char '(' ++ star (noneOf ")") ++ char ')') ++ blanks

def visibility : Pattern κ := keyword ["public", "private", "protected", "global"]

def modifier : Pattern κ :=
  keyword ["static", "final", "override", "virtual", "abstract", "transient", "webservice",
    "testmethod"] ++ blanks

def isTypeChar (c : Char) : Bool := Text.isWord c || c == '.'

def isTypeArgumentChar (c : Char) : Bool :=
  isTypeChar c || Text.isBlank c || c == '<' || c == '>' || c == ','

def typeName : Pattern κ :=
  plus (one isTypeChar) ++ maybe (star blank ++ char '<' ++ star (one isTypeArgumentChar) ++
    char '>') ++
    maybe (literal "[]")

/-- Not between two blanks. A member that may begin inside a run of blanks may as well begin at the
front of the run, which a scan reaches first. -/
def outsideBlanks : Pattern κ :=
  guard fun here => !(here.before.any Text.isBlank && here.rest.head?.any Text.isBlank)

/-- What a member begins with, up to its name. -/
def memberStart : Pattern MemberPart :=
  outsideBlanks ++ maybe (group .doc docComment) ++ sweep Text.isBlank ++
    group .annotations (star annotation) ++
    group .visibility visibility ++ blanks ++ group .modifiers (star modifier) ++
    group .type typeName ++ blanks ++ group .name (plus wordChar) ++ star blank

def accessor (name : String) : Pattern κ :=
  maybe (plus wordChar ++ blanks) ++ anyCase name ++ star blank ++ char ';' ++ star blank

def propertyPattern : Pattern MemberPart :=
  memberStart ++ char '{' ++ star blank ++ accessor "get" ++ accessor "set" ++ char '}'

def methodPattern : Pattern MemberPart :=
  memberStart ++ char '(' ++ group .parameters (star (noneOf ")")) ++ char ')' ++ star blank ++
    char '{'

def classPattern : Pattern Unit :=
  wordEdge ++ maybe (visibility ++ blanks) ++
    maybe (keyword ["with", "without", "inherited"] ++ blanks ++ anyCase "sharing" ++ blanks) ++
    maybe (keyword ["virtual", "abstract"] ++ blanks) ++ anyCase "class" ++ blanks ++
    group () (plus wordChar) ++ star (one fun c => c != '{' && c != ';') ++ char '{'

/-- The words of a comment in front of a member, or else a default. -/
def description (hit : Hit MemberPart) (default : Text) : Text :=
  (nonEmpty? (cleanDoc (hit.group .doc))).getD default

def propertyOf (hit : Hit MemberPart) : Property :=
  let type := Text.collapse (hit.group .type)
  { name := hit.group .name
    type := type
    visibility := Text.lowerKeyword (hit.group .visibility)
    modifiers := Text.words (hit.group .modifiers)
    description := description hit
      ("Property ".toList ++ hit.group .name ++ " of type ".toList ++ type) }

def methodOf (hit : Hit MemberPart) : Method :=
  let type := Text.collapse (hit.group .type)
  { name := hit.group .name
    returnType := type
    visibility := Text.lowerKeyword (hit.group .visibility)
    parameters := Text.collapse (hit.group .parameters)
    modifiers := Text.words (hit.group .modifiers)
    annotations := (Text.words (hit.group .annotations)).map (·.takeWhile (· != '('))
    description := description hit
      ("Method ".toList ++ hit.group .name ++ " returning ".toList ++ type) }

/-- A class declaration in a text: where it starts, where what follows it starts, its name and its
body. -/
structure Declaration where
  start : Cursor
  after : Cursor
  name : Text
  body : Text
  isClosed : Bool

def skip : Nat → Cursor → Cursor
  | 0, here => here
  | n + 1, here =>
    match here.next? with
    | some (_, next) => skip n next
    | none => here

/-- The declaration whose opening brace ends a match. Without a closing brace its body is all the
rest. -/
def declarationAt (hit : Hit Unit) : Declaration :=
  match closingFrom .code 1 0 hit.stop.rest with
  | some length =>
    ⟨hit.start, skip (length + 1) hit.stop, hit.group (), hit.stop.rest.take length, true⟩
  | none => ⟨hit.start, skip hit.stop.left hit.stop, hit.group (), hit.stop.rest, false⟩

def declarationsFrom : Nat → Cursor → List Declaration
  | 0, _ => []
  | n + 1, here =>
    match classPattern.searchFrom here with
    | some hit =>
      let declaration := declarationAt hit
      declaration :: declarationsFrom n declaration.after
    | none => []

/-- The outermost class declarations in a text. -/
def declarations (text : Text) : List Declaration :=
  declarationsFrom text.length (Cursor.start text)

/-- The text with declarations replaced by spaces, one for each character and one more for a missing
closing brace. -/
def blankedFrom : Cursor → List Declaration → Text
  | here, [] => here.rest
  | here, declaration :: others =>
    let extra := if declaration.isClosed then 0 else 1
    (here.spanTo declaration.start).text ++
      List.replicate (declaration.start.left - declaration.after.left + extra) ' ' ++
      blankedFrom declaration.after others

def blanked (text : Text) (found : List Declaration) : Text := blankedFrom (Cursor.start text) found

/-- Reads a class body; `fuel` bounds how deep classes are nested. -/
def readBody : Nat → Text → Text → Class
  | 0, name, _ => .mk name [] [] []
  | fuel + 1, name, body =>
    let found := declarations body
    let members := blanked body found
    .mk name ((propertyPattern.hits members).map propertyOf)
      ((methodPattern.hits members).map methodOf)
      (found.map fun declaration => readBody fuel declaration.name declaration.body)

/-- Reads the first class of a source. Without a declaration the whole source is taken for the body
of a class with the given name. -/
def read (source name : Text) : Class :=
  match classPattern.search source with
  | some hit =>
    let declaration := declarationAt hit
    readBody (source.length + 1) declaration.name declaration.body
  | none => readBody (source.length + 1) name source

end Visualforce.Apex
