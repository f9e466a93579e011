import Visualforce.Xml.Name

/-! # References and entities

A reference names a character by its number or an entity by its name. Five entities are always
known; a document type may declare more, and one with an external part makes unknown names
tolerable.
-/
namespace Visualforce.Xml

/-- What stands between `&` and `;`. A number that no document may hold has no character. -/
inductive Reference where
  | number (character : Option Char)
  | entity (name : Text)
deriving DecidableEq, Repr

def legalCode? (n : Nat) : Option Char :=
  if h : n.isValidChar then
    let c := Char.ofNatAux n h
    if isLegal c then some c else none
  else none

def isHexDigit (c : Char) : Bool :=
  c.isDigit || ('a' ≤ c && c ≤ 'f') || ('A' ≤ c && c ≤ 'F')

def digitValue (c : Char) : Nat :=
  if c.isDigit then c.toNat - 0x30
  else if c.isLower then c.toNat - 0x57
  else c.toNat - 0x37

def readNumber (base : Nat) (digits : Text) : Nat :=
  digits.foldl (fun n c => n * base + digitValue c) 0

/-- A reference, from just after its `&`. -/
def reference (opening : Text) : Text → Except Fault (Reference × Text)
  | '#' :: 'x' :: rest => numbered 16 isHexDigit rest
  | '#' :: rest => numbered 10 Char.isDigit rest
  | rest => do
    let (name, rest) ← simpleName opening rest
    match rest with
    | ';' :: rest => return (.entity name, rest)
    | rest => refuse opening rest
where
  numbered (base : Nat) (isDigit : Char → Bool) (text : Text) : Except Fault (Reference × Text) :=
    match text.takeWhile isDigit, text.dropWhile isDigit with
    | [], rest => refuse opening rest
    | digits, ';' :: rest => .ok (.number (legalCode? (readNumber base digits)), rest)
    | _, rest => refuse opening rest

/-- The entities of a document. When `tolerant`, a name that is not declared may be declared out of
sight. -/
structure Entities where
  declared : List (Text × Text)
  tolerant : Bool

def predefined : List (Text × Text) :=
  [("amp".toList, ['&']), ("lt".toList, ['<']), ("gt".toList, ['>']), ("quot".toList, ['"']),
   ("apos".toList, ['\''])]

def Entities.lookup? (entities : Entities) (name : Text) : Option Text :=
  (predefined.lookup name).or (entities.declared.lookup name)

end Visualforce.Xml
