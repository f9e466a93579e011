import Visualforce.Xml.Reference

/-! # Marks outside the root element

Before and after the root element a document is a sequence of marks: space, comments, processing
instructions and the pieces of a document type declaration. Reading a mark fails when its spelling
is broken; whether a mark may stand where it stands is decided by the reader of the prolog.
-/
namespace Visualforce.Xml

inductive Mark where
  | space
  | comment
  | instruction
  /-- An XML declaration with the text between its target and its end. -/
  | xmlDeclaration (body : Text)
  | element
  | declaration (keyword : Text)
  | name (text : Text)
  | literal (content : Text)
  | openBracket
  | closeBracket
  | close
  | parameter
  | other
deriving DecidableEq, Repr

/-- What is wrong with a mark that stands where it may not. -/
def Mark.misplaced {α : Type} (found : Mark) (place : Text) : Except Fault α :=
  match found with
  | .xmlDeclaration _ => fail .misplacedDeclaration place
  | .parameter => fail .parameterEntity place
  | _ => fail .badSyntax place

/-- The rest of a comment, from just after its opening hyphens. -/
def comment (opening : Text) : Text → Except Fault Text
  | '-' :: '-' :: '>' :: rest => .ok rest
  | '-' :: '-' :: rest => refuse opening rest
  | [] => fail .unclosedToken opening
  | c :: rest => if isLegal c then comment opening rest else fail .badToken (c :: rest)

def instructionBody (opening : Text) : Text → Text → Except Fault (Text × Text)
  | body, '?' :: '>' :: rest => .ok (body.reverse, rest)
  | _, [] => fail .unclosedToken opening
  | body, c :: rest =>
    if isLegal c then instructionBody opening (c :: body) rest else fail .badToken (c :: rest)

def isXmlTarget (target : Text) : Bool := target.map Char.toLower == "xml".toList

/-- A processing instruction or an XML declaration, from just after its opening. A target that is
`xml` in another case is refused. -/
def instruction (opening text : Text) : Except Fault (Mark × Text) := do
  let (target, rest) ← simpleName opening text
  match rest with
  | [] => fail .unclosedToken opening
  | c :: after =>
    if !isSpace c && c != '?' then fail .badToken rest
    else if isXmlTarget target && target != "xml".toList then fail .badToken rest
    else if c == '?' && after.head? != some '>' then refuse opening after
    else
      let (body, rest) ← instructionBody opening [] rest
      return (if target == "xml".toList then .xmlDeclaration body else .instruction, rest)

def literal (opening : Text) (quote : Char) : Text → Text → Except Fault (Mark × Text)
  | _, [] => fail .unclosedToken opening
  | content, c :: rest =>
    if !isLegal c then fail .badToken (c :: rest)
    else if c == quote then
      match rest with
      | [] => .ok (.literal content.reverse, [])
      | d :: _ =>
        if isSpace d || d == '>' || d == '%' || d == '[' then .ok (.literal content.reverse, rest)
        else fail .badToken rest
    else literal opening quote (c :: content) rest

def isKeywordChar (c : Char) : Bool := c.isAlpha || c == '_'

/-- What begins with an exclamation mark, from just after it. -/
def exclamation (opening : Text) : Text → Except Fault (Mark × Text)
  | '-' :: '-' :: rest => do return (.comment, ← comment opening rest)
  | '-' :: rest => refuse opening rest
  | '[' :: rest => .ok (.other, rest)
  | text =>
    match text.takeWhile isKeywordChar, text.dropWhile isKeywordChar with
    | [], rest => refuse opening rest
    | _, [] => fail .unclosedToken opening
    | keyword, c :: rest =>
      if isSpace c then .ok (.declaration keyword, c :: rest)
      else if c == '%' then
        match rest with
        | [] => fail .unclosedToken opening
        | d :: _ =>
          if isSpace d || d == '%' then fail .badToken (c :: rest)
          else .ok (.declaration keyword, c :: rest)
      else fail .badToken (c :: rest)

inductive TokenKind where
  | name
  | qualified
  | loose

/-- The rest of a name or of another run of name characters and colons. -/
def nameToken (opening : Text) : TokenKind → Text → Text → Except Fault (Mark × Text)
  | kind, taken, [] => .ok (ending kind taken, [])
  | kind, taken, c :: rest =>
    if isNameChar c then nameToken opening kind (c :: taken) rest
    else if c == ':' then
      match kind with
      | .name =>
        match rest with
        | [] => fail .unclosedToken opening
        | d :: _ =>
          nameToken opening (if isNameChar d then .qualified else .loose) (c :: taken) rest
      | _ => nameToken opening .loose (c :: taken) rest
    else if isSpace c || ">),|[%".toList.contains c then .ok (ending kind taken, c :: rest)
    else if "+*?".toList.contains c then
      match kind with
      | .loose => fail .badToken (c :: rest)
      | _ => .ok (.other, rest)
    else fail .badToken (c :: rest)
where
  ending (kind : TokenKind) (taken : Text) : Mark :=
    match kind with
    | .loose => .other
    | _ => .name taken.reverse

/-- What begins with a per cent sign, from just after it. -/
def percent (opening text : Text) : Except Fault (Mark × Text) :=
  match text with
  | [] => fail .unclosedToken opening
  | c :: _ =>
    if isSpace c || c == '%' then .ok (.other, text)
    else do
      let (_, rest) ← simpleName opening text
      match rest with
      | ';' :: rest => return (.parameter, rest)
      | rest => refuse opening rest

def pound (opening text : Text) : Except Fault (Mark × Text) := do
  let (_, rest) ← simpleName opening text
  match rest with
  | [] => return (.other, [])
  | c :: _ =>
    if isSpace c || ")>%|".toList.contains c then return (.other, rest) else fail .badToken rest

/-- Beyond ASCII a character after `<` is looked at only when the tag is read. -/
def mayOpenElement (c : Char) : Bool := isNameStart c || 0x80 ≤ c.toNat

/-- The mark at the front of a text that is not empty. -/
def mark (text : Text) : Except Fault (Mark × Text) :=
  match text with
  | [] => .ok (.other, [])
  | '<' :: '!' :: rest => exclamation text rest
  | '<' :: '?' :: rest => instruction text rest
  | '<' :: rest =>
    match rest with
    | [] => fail .unclosedToken text
    | c :: _ => if mayOpenElement c then .ok (.element, rest) else fail .badToken rest
  | ']' :: rest =>
    match rest with
    | [']'] => fail .unclosedToken text
    | ']' :: '>' :: rest => .ok (.other, rest)
    | rest => .ok (.closeBracket, rest)
  | ')' :: rest =>
    match rest with
    | [] => .ok (.other, [])
    | c :: after =>
      if "*?+".toList.contains c then .ok (.other, after)
      else if isSpace c || ">,|)".toList.contains c then .ok (.other, rest)
      else fail .badToken rest
  | '[' :: rest => .ok (.openBracket, rest)
  | '>' :: rest => .ok (.close, rest)
  | '%' :: rest => percent text rest
  | '#' :: rest => pound text rest
  | c :: rest =>
    if isSpace c then .ok (.space, skipSpace rest)
    else if c == '"' || c == '\'' then literal text c [] rest
    else if c == ',' || c == '|' || c == '(' then .ok (.other, rest)
    else if isNameStart c then nameToken text .name [c] rest
    else if isNameChar c || c == ':' then nameToken text .loose [c] rest
    else fail .badToken text

end Visualforce.Xml
