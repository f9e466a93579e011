import Visualforce.Page.Model

/-! # Entities and fields of a page

A dotted expression names a field of an entity; a plain name is a field of the controller's entity.
What begins with a dollar sign is global and names no entity.
-/
namespace Visualforce.Page
open Pattern Expression

structure FieldPath where
  entity : Text
  path : Text
deriving DecidableEq, Repr

def FieldPath.text (field : FieldPath) : Text := field.entity ++ '.' :: field.path

inductive PathPart where
  | entity
  | path
deriving DecidableEq

def dottedPath : Pattern PathPart :=
  group .entity identifier ++ group .path (plus (char '.' ++ identifier))

def isGlobal (name : Text) : Bool := name.head? == some '$'

/-- The chain of identifiers that an expression begins with. -/
def splitPath? (expression : Text) : Option FieldPath :=
  match dottedPath.matchAt (Cursor.start (Text.trim expression)) with
  | some hit =>
    if isGlobal (hit.group .entity) then none
    else some ⟨hit.group .entity, (hit.group .path).drop 1⟩
  | none => none

/-- The two parts of an expression around its first dot, trimmed. -/
def splitAtDot? (expression : Text) : Option FieldPath :=
  match Text.cutAt? (· == '.') (Text.trim expression) with
  | some (before, after) =>
    let entity := Text.trim before
    let path := Text.trim after
    if entity.isEmpty || path.isEmpty || isGlobal entity then none else some ⟨entity, path⟩
  | none => none

def splitReference? (expression : Text) : Option FieldPath :=
  (splitPath? expression).or (splitAtDot? expression)

/-- One identifier without a dollar sign; a line feed may follow it. -/
def plainIdentifier : Pattern Unit :=
  one (fun c => c.isAlpha || c == '_') ++ star wordChar ++
    guard (fun here => here.rest.isEmpty || here.rest == ['\n'])

/-- The controller as an entity, unless it is missing, blank or dotted. -/
def controllerEntity? (controller : Option Text) : Option Text :=
  match nonEmpty? (Text.trim (controller.getD [])) with
  | some name => if name.contains '.' then none else some name
  | none => none

/-- The field that a reference stands for, and whether it names the entity itself. -/
def fieldOf? (controller : Option Text) (expression : Text) : Option (FieldPath × Bool) :=
  match splitReference? expression with
  | some field => some (field, true)
  | none =>
    match controller with
    | some entity =>
      if startsWith plainIdentifier expression then some (⟨entity, expression⟩, false) else none
    | none => none

structure Dependencies where
  entities : List Text
  fields : List Text
deriving DecidableEq, Repr

def backfill (controller : Option Text) (reference : FieldReference) : FieldReference :=
  match fieldOf? controller reference.expression with
  | some (field, _) => { reference with entity := some field.entity, field := some field.path }
  | none => reference

/-- Entities and fields of simple references and property paths, each once. -/
def resolve (controller : Option Text) (expressions paths : List Text) : Dependencies :=
  let controller := controllerEntity? controller
  let found := expressions.filterMap (fieldOf? controller)
  let split := paths.filterMap splitPath?
  { entities := dedupe (controller.toList ++ (found.filter (·.2)).map (·.1.entity) ++
      split.map (·.entity))
    fields := dedupe (found.map (·.1.text) ++ split.map (·.text)) }

/-- Resolves the references of a page and adds what they name to its entities and fields. -/
def addDependencies (page : Page) : Page :=
  let found := resolve page.controller (page.fieldReferences.map (·.expression))
    (page.expressions.filter fun e => classify e == .propertyPath)
  { page with
    fieldReferences := page.fieldReferences.map (backfill (controllerEntity? page.controller))
    entities := dedupe (page.entities ++ found.entities)
    entityFields := dedupe (page.entityFields ++ found.fields) }

end Visualforce.Page
