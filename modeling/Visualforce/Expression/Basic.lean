import Visualforce.Pattern.Scan

/-! # Merge-field expressions

An expression stands between `{!` and the next closing brace. By its shape it is a function call, a
boolean expression, a property path or a simple reference, tested in this order.
-/
namespace Visualforce.Expression
open Pattern

/-- An opening, at least one character that is no closing brace, and a closing brace; blanks next to
the delimiters stay out of the group. -/
def mergeField : Pattern Unit :=
  literal "\x7b!" ++ star blank ++ group () (plusLazy (one (· != '}'))) ++ star blank ++ char '}'

/-- The trimmed contents of all expressions that are not blank. -/
def find (text : Text) : List Text :=
  ((mergeField.findAll () text).map Text.trim).filter (!·.isEmpty)

def first? (text : Text) : Option Text := (find text).head?

inductive Kind where
  | functionCall
  | booleanExpression
  | propertyPath
  | simpleReference
deriving DecidableEq, Repr

def Kind.label : Kind → Text
  | functionCall => "function_call".toList
  | booleanExpression => "boolean_expression".toList
  | propertyPath => "property_path".toList
  | simpleReference => "simple_reference".toList

def isIdentifierStart (c : Char) : Bool := c.isAlpha || c == '_' || c == '$'

def isIdentifierChar (c : Char) : Bool := Text.isWord c || c == '$'

def identifier {κ : Type} : Pattern κ := one isIdentifierStart ++ star (one isIdentifierChar)

def callOpening : Pattern Unit := identifier ++ char '('

def booleanWord : Pattern Unit :=
  wordEdge ++ firstOf [anyCase "AND", anyCase "OR", anyCase "NOT"] ++ wordEdge

def booleanSymbols : List Text := ["&&", "||", "==", "!=", ">", "<"].map String.toList

def dottedAccess : Pattern Unit := identifier ++ char '.' ++ identifier

def startsWith {κ : Type} (pattern : Pattern κ) (text : Text) : Bool :=
  (pattern.matchAt (Cursor.start text)).isSome

def classify (content : Text) : Kind :=
  let content := Text.trim content
  if startsWith callOpening content then .functionCall
  else if booleanWord.occursIn content || booleanSymbols.any (Text.has · content) then
    .booleanExpression
  else if dottedAccess.occursIn content then .propertyPath
  else .simpleReference

/-- Two for anything with a call, one for a dotted access, nought otherwise. -/
def rank (expression : Text) : Nat :=
  if expression.contains '(' then 2 else if expression.contains '.' then 1 else 0

/-- Each expression once, the highest rank first, equal ranks in order of first occurrence. -/
def rankAll (expressions : List Text) : List Text :=
  (dedupe expressions).mergeSort fun a b => rank b ≤ rank a

end Visualforce.Expression
