import Visualforce.Xml.Fault

/-! # Names in tags

A tag writes a name as a local part, with an optional qualifier and a colon before it. Namespaces
turn the written name into an expanded one.
-/
namespace Visualforce.Xml

/-- A name as a tag writes it. -/
structure WrittenName where
  qualifier : Option Text
  base : Text
deriving DecidableEq, Repr

def WrittenName.text (name : WrittenName) : Text :=
  match name.qualifier with
  | none => name.base
  | some qualifier => qualifier ++ ':' :: name.base

/-- A name with the namespace it belongs to. -/
structure Name where
  space : Option Text
  base : Text
deriving DecidableEq, Repr

/-- A name without a colon: a name character run whose first character may begin a name. -/
def simpleName (opening : Text) : Text → Except Fault (Text × Text)
  | [] => fail .unclosedToken opening
  | c :: rest =>
    if isNameStart c then .ok (c :: rest.takeWhile isNameChar, rest.dropWhile isNameChar)
    else fail .badToken (c :: rest)

/-- A name with at most one colon, both parts being names. -/
def writtenName (opening text : Text) : Except Fault (WrittenName × Text) := do
  let (first, rest) ← simpleName opening text
  match rest with
  | ':' :: after =>
    let (base, rest) ← simpleName opening after
    return (⟨some first, base⟩, rest)
  | rest => return (⟨none, first⟩, rest)

end Visualforce.Xml
