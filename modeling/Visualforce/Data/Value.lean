import Visualforce.Text.Basic

/-! # Structured values

What results are written out as: null, truth values, integers, texts, lists and objects. An object
keeps the order of its fields.
-/
namespace Visualforce

inductive Value where
  | null
  | bool (b : Bool)
  | int (n : Int)
  | text (content : Text)
  | list (items : List Value)
  | object (fields : List (Text × Value))
deriving Inhabited

namespace Value

def ofText? : Option Text → Value
  | none => null
  | some content => text content

def ofTexts (contents : List Text) : Value := list (contents.map text)

/-- An object with the given field names. -/
def record (fields : List (String × Value)) : Value :=
  object (fields.map fun (name, value) => (name.toList, value))

def text? : Value → Option Text
  | text content => some content
  | _ => none

def int? : Value → Option Int
  | int n => some n
  | _ => none

def bool? : Value → Option Bool
  | bool b => some b
  | _ => none

def texts? : Value → Option (List Text)
  | list items => items.mapM text?
  | _ => none

end Value
end Visualforce
