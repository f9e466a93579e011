import Visualforce.Data.Value

/-! # Classes

What a page can bind to in a class: properties with default accessors, methods, and inner classes of
the same kind.
-/
namespace Visualforce.Apex

structure Property where
  name : Text
  type : Text
  visibility : Text
  modifiers : List Text
  description : Text
deriving DecidableEq, Repr

structure Method where
  name : Text
  returnType : Text
  visibility : Text
  parameters : Text
  modifiers : List Text
  annotations : List Text
  description : Text
deriving DecidableEq, Repr

inductive Class where
  | mk (name : Text) (properties : List Property) (methods : List Method) (inner : List Class)
deriving Repr

namespace Class

def name : Class → Text
  | mk name _ _ _ => name

def properties : Class → List Property
  | mk _ properties _ _ => properties

def methods : Class → List Method
  | mk _ _ methods _ => methods

def inner : Class → List Class
  | mk _ _ _ inner => inner

end Class

def Property.toValue (property : Property) : Value :=
  .record [("name", .text property.name), ("type", .text property.type),
    ("visibility", .text property.visibility), ("modifiers", .ofTexts property.modifiers),
    ("description", .text property.description)]

def Method.toValue (method : Method) : Value :=
  .record [("name", .text method.name), ("return_type", .text method.returnType),
    ("visibility", .text method.visibility), ("parameters", .text method.parameters),
    ("modifiers", .ofTexts method.modifiers), ("annotations", .ofTexts method.annotations),
    ("description", .text method.description)]

mutual
def Class.toValue : Class → Value
  | .mk name properties methods inner =>
    .record [("name", .text name), ("properties", .list (properties.map (·.toValue))),
      ("methods", .list (methods.map (·.toValue))), ("inner_classes", .list (Class.toValues inner))]

def Class.toValues : List Class → List Value
  | [] => []
  | first :: rest => Class.toValue first :: Class.toValues rest
end

end Visualforce.Apex
