import Visualforce.Expression.Basic

/-! # Collected expressions

While a page is read its expressions are sorted into two lists in the order of their occurrence:
simple references with the context they stand in, and everything else.
-/
namespace Visualforce

/-- A simple reference and where it stands; the entity and field it was resolved to, if any. -/
structure FieldReference where
  expression : Text
  context : Text
  entity : Option Text
  field : Option Text
deriving DecidableEq, Repr

def FieldReference.unresolved (expression context : Text) : FieldReference :=
  ⟨expression, context, none, none⟩

namespace Expression

structure Classified where
  content : Text
  kind : Kind
deriving DecidableEq, Repr

def scan (text : Text) : List Classified := (find text).map fun c => ⟨c, classify c⟩

structure Collection where
  expressions : List Text
  references : List FieldReference
deriving DecidableEq, Repr

namespace Collection

def empty : Collection := ⟨[], []⟩

def isSimple (item : Classified) : Bool := item.kind == .simpleReference

/-- Sorts what a text holds behind what was collected before. -/
def add (collection : Collection) (items : List Classified) (context : Text) : Collection where
  expressions := collection.expressions ++ (items.filter (!isSimple ·)).map (·.content)
  references :=
    collection.references ++ (items.filter isSimple).map (.unresolved ·.content context)

def scan (collection : Collection) (text context : Text) : Collection :=
  collection.add (Expression.scan text) context

end Collection
end Expression
end Visualforce
