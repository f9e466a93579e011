import Visualforce.Xml.Prolog
import Visualforce.Xml.Namespace

/-! # Documents

A document is a prolog, one root element and an epilog. Elements hold elements and runs of text;
what lies in sections and on both sides of a comment or an instruction joins into one run.
-/
namespace Visualforce.Xml

inductive Node where
  | text (content : Text)
  | element (name : Name) (attributes : List (Name × Text)) (children : List Node)

structure Element where
  name : Name
  attributes : List (Name × Text)
  children : List Node

def Element.toNode (element : Element) : Node :=
  .element element.name element.attributes element.children

/-- An open element with its children so far, the last one first. -/
structure Frame where
  opened : Opened
  children : List Node

/-- The text run that has been read goes before the next child. -/
def Frame.flush (frame : Frame) (run : Text) : Frame :=
  if run.isEmpty then frame else { frame with children := .text run.reverse :: frame.children }

def Frame.close (frame : Frame) : Element :=
  ⟨frame.opened.name, frame.opened.attributes, frame.children.reverse⟩

def Frame.add (frame : Frame) (element : Element) : Frame :=
  { frame with children := element.toNode :: frame.children }

/-- The content of a section, from just after its opening, onto a reversed run. -/
def sectionContent : Text → Text → Except Fault (Text × Text)
  | run, ']' :: ']' :: '>' :: rest => .ok (run, rest)
  | run, '\r' :: '\n' :: rest => sectionContent ('\n' :: run) rest
  | _, [] => fail .unclosedSection []
  | _, [']'] => fail .unclosedSection [']']
  | _, [']', ']'] => fail .unclosedSection [']', ']']
  | run, c :: rest =>
    if isLegal c then sectionContent ((if c == '\r' then '\n' else c) :: run) rest
    else fail .badToken (c :: rest)

/-- The end of a section's opening, from just after its first bracket. -/
def sectionStart (opening text : Text) : Except Fault Text :=
  if (text.take 6).foldl (fun n c => n + c.utf8Size) 0 < 6 then fail .unclosedToken opening
  else differ "CDATA[".toList text
where
  differ : Text → Text → Except Fault Text
    | [], rest => .ok rest
    | expected :: more, c :: rest =>
      if c == expected then differ more rest else fail .badToken (c :: rest)
    | _ :: _, [] => fail .unclosedToken opening

/-- An end tag, from just after its slash. It must repeat the name of the open element. -/
def endTag (written : WrittenName) (opening text : Text) : Except Fault Text :=
  let isPart (c : Char) := isNameChar c || c == ':'
  if !text.head?.any isNameStart then refuse opening text
  else
    match skipSpace (text.dropWhile isPart) with
    | '>' :: rest =>
      if text.takeWhile isPart == written.text then .ok rest else fail .mismatchedTag text
    | rest => refuse opening rest

/-- Content from inside the innermost frame up to the end of the root element. -/
def content (entities : Entities) :
    Nat → List Frame → Frame → Text → Text → Except Fault (Element × Text)
  | 0, _, _, _, rest => fail .noElement rest
  | fuel + 1, outer, frame, run, text =>
    match text with
    | [] => fail .noElement []
    | '<' :: '/' :: rest => do
      let rest ← endTag frame.opened.written text rest
      let element := (frame.flush run).close
      match outer with
      | [] => return (element, rest)
      | parent :: outer => content entities fuel outer (parent.add element) [] rest
    | '<' :: '!' :: '-' :: '-' :: rest => do
      content entities fuel outer frame run (← comment text rest)
    | '<' :: '!' :: '-' :: rest => refuse text rest
    | '<' :: '!' :: '[' :: rest => do
      let (run, rest) ← sectionContent run (← sectionStart text rest)
      content entities fuel outer frame run rest
    | '<' :: '!' :: rest => refuse text rest
    | '<' :: '?' :: rest => do
      match ← instruction text rest with
      | (.xmlDeclaration _, _) => fail .misplacedDeclaration text
      | (_, rest) => content entities fuel outer frame run rest
    | '<' :: rest => do
      let (tag, rest) ← startTag text rest
      let opened ← openElement entities frame.opened.scope text tag
      let frame := frame.flush run
      if tag.closed then content entities fuel outer (frame.add (Frame.mk opened []).close) [] rest
      else content entities fuel (frame :: outer) ⟨opened, []⟩ [] rest
    | '&' :: rest => do
      let (ref, after) ← reference text rest
      match ref with
      | .number (some c) => content entities fuel outer frame (c :: run) after
      | .number none => fail .badCharacterNumber text
      | .entity name =>
        match entities.lookup? name with
        | some value => content entities fuel outer frame (value.reverse ++ run) after
        | none =>
          if entities.tolerant then fail (.skippedEntity name) text
          else fail .undefinedEntity text
    | ']' :: ']' :: '>' :: rest => fail .badToken ('>' :: rest)
    | '\r' :: '\n' :: rest => content entities fuel outer frame ('\n' :: run) rest
    | c :: rest =>
      if isLegal c then
        content entities fuel outer frame ((if c == '\r' then '\n' else c) :: run) rest
      else fail .badToken text

def rootElement (entities : Entities) (text : Text) : Except Fault (Element × Text) := do
  let (tag, rest) ← startTag text (text.drop 1)
  let opened ← openElement entities Scope.initial text tag
  if tag.closed then return ((Frame.mk opened []).close, rest)
  else content entities (rest.length + 1) [] ⟨opened, []⟩ [] rest

def withoutMark : Text → Text
  | c :: rest => if c.toNat == 0xFEFF then rest else c :: rest
  | [] => []

/-- The root element of a document. A byte order mark at the very start is passed over. -/
def read (document : Text) : Except Fault Element := do
  let (setup, text) ← prolog (withoutMark document)
  let (root, rest) ← rootElement setup.entities text
  epilog (rest.length + 1) rest
  return root

mutual
/-- How many elements lie inside one another, this one included. -/
def Node.depth : Node → Nat
  | .text _ => 0
  | .element _ _ children => Node.depthOfList children + 1

def Node.depthOfList : List Node → Nat
  | [] => 0
  | node :: rest => max node.depth (Node.depthOfList rest)
end

def Element.depth (element : Element) : Nat := element.toNode.depth

end Visualforce.Xml
