import Visualforce.Data.Writing

/-! # Canonical text of values

The canonical text of a value does not depend on the order of fields. For a digest, fields that say
how a result came about are left out at every level first.
-/
namespace Visualforce.Value

def volatileFields : List Text := ["warnings".toList, "extraction_mode".toList]

mutual
/-- The value without its volatile fields. -/
def normalize : Value → Value
  | null => null
  | bool b => bool b
  | int n => int n
  | text content => text content
  | list items => list (normalizeItems items)
  | object fields => object (normalizeFields fields)

def normalizeItems : List Value → List Value
  | [] => []
  | item :: rest => normalize item :: normalizeItems rest

def normalizeFields : List (Text × Value) → List (Text × Value)
  | [] => []
  | (name, value) :: rest =>
    if volatileFields.contains name then normalizeFields rest
    else (name, normalize value) :: normalizeFields rest
end

def fieldLe (a b : Text × Value) : Bool := !List.lex b.1 a.1 fun c d => c.toNat < d.toNat

mutual
/-- The value with the fields of every object in the order of their names. -/
def sortFields : Value → Value
  | null => null
  | bool b => bool b
  | int n => int n
  | text content => text content
  | list items => list (sortItems items)
  | object fields => object ((sortEntries fields).mergeSort fieldLe)

def sortItems : List Value → List Value
  | [] => []
  | item :: rest => sortFields item :: sortItems rest

def sortEntries : List (Text × Value) → List (Text × Value)
  | [] => []
  | (name, value) :: rest => (name, sortFields value) :: sortEntries rest
end

def canonicalText (value : Value) : Text := write .compact (sortFields value)

end Visualforce.Value
