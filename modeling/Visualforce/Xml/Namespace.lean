import Visualforce.Xml.StartTag

/-! # Namespaces

A start tag may bind qualifiers, and the empty one, to namespaces for itself and its content. The
bindings are taken out of its attributes and the remaining names are expanded.
-/
namespace Visualforce.Xml

/-- Qualifiers with their namespaces, the innermost first; `none` is the default namespace and an
empty namespace is no namespace. -/
abbrev Scope := List (Option Text × Text)

def xmlSpace : Text := "http://www.w3.org/XML/1998/namespace".toList

def xmlnsSpace : Text := "http://www.w3.org/2000/xmlns/".toList

def Scope.initial : Scope := [(some "xml".toList, xmlSpace)]

/-- What an attribute name binds, if it is a namespace declaration. -/
def WrittenName.binds? (name : WrittenName) : Option (Option Text) :=
  match name.qualifier with
  | none => if name.base == "xmlns".toList then some none else none
  | some qualifier => if qualifier == "xmlns".toList then some (some name.base) else none

/-- Why a qualifier may not be bound to a namespace. -/
def bindingFault? (qualifier : Option Text) (space : Text) : Option Reason :=
  if qualifier.isSome && space.isEmpty then some .undeclaredQualifier
  else if qualifier == some "xmlns".toList then some .reservedXmlns
  else if space.contains '}' then some .badSyntax
  else if qualifier == some "xml".toList then
    if space == xmlSpace then none else some .reservedXml
  else if space == xmlSpace || space == xmlnsSpace then some .reservedSpace
  else none

/-- The bindings of a tag added to the scope, and its other attributes with their values. -/
def separate (entities : Entities) (opening : Text) :
    List WrittenAttribute → List WrittenName → Scope → List (WrittenName × Text) →
      Except Fault (Scope × List (WrittenName × Text))
  | [], _, scope, others => .ok (scope, others.reverse)
  | attr :: rest, seen, scope, others => do
    if seen.contains attr.name then fail .duplicateAttribute attr.place
    else
      let value ← resolveValue entities opening attr.value
      match attr.name.binds? with
      | some qualifier =>
        match bindingFault? qualifier value with
        | some reason => fail reason opening
        | none =>
          separate entities opening rest (attr.name :: seen) ((qualifier, value) :: scope) others
      | none =>
        separate entities opening rest (attr.name :: seen) scope
          ((attr.name, value) :: others)

/-- Expands attribute names: one without a qualifier belongs to no namespace, and no two with a
qualifier may come out the same. -/
def expandAttributes (opening : Text) (scope : Scope) :
    List (WrittenName × Text) → List (Name × Text) → Except Fault (List (Name × Text))
  | [], expanded => .ok expanded.reverse
  | (name, value) :: rest, expanded =>
    match name.qualifier with
    | none => expandAttributes opening scope rest ((⟨none, name.base⟩, value) :: expanded)
    | some qualifier =>
      match scope.lookup (some qualifier) with
      | none => fail .unboundQualifier opening
      | some space =>
        let full : Name := ⟨some space, name.base⟩
        if expanded.any (·.1 == full) then fail .duplicateAttribute opening
        else expandAttributes opening scope rest ((full, value) :: expanded)

def expandElement (opening : Text) (scope : Scope) (name : WrittenName) : Except Fault Name :=
  match name.qualifier, scope.lookup name.qualifier with
  | none, space => .ok ⟨space.bind nonEmpty?, name.base⟩
  | some _, some space => .ok ⟨some space, name.base⟩
  | some _, none => fail .unboundQualifier opening

/-- An open element: how its tag is written, its expanded name and attributes, and the scope
inside. -/
structure Opened where
  written : WrittenName
  name : Name
  attributes : List (Name × Text)
  scope : Scope

def openElement (entities : Entities) (scope : Scope) (opening : Text) (tag : StartTag) :
    Except Fault Opened := do
  let (scope, others) ← separate entities opening tag.attributes [] scope []
  let attributes ← expandAttributes opening scope others []
  let name ← expandElement opening scope tag.name
  return ⟨tag.name, name, attributes, scope⟩

end Visualforce.Xml
