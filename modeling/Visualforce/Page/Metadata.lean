import Visualforce.Page.Model
import Visualforce.Text.Blank
import Visualforce.Xml.Document

/-! # Page metadata

A page may come with a small document that gives its version and label. What the page says itself
goes before what its metadata says.
-/
namespace Visualforce.Page

structure Metadata where
  apiVersion : Option Text
  label : Option Text
  description : Option Text
  availableInTouch : Bool
  confirmationTokenRequired : Bool
deriving DecidableEq, Repr

/-- Why metadata cannot be read. A fault comes with the document it lies in. -/
inductive MetadataError where
  | malformed (fault : Xml.Fault) (document : Text)
  | wrongRoot (name : Text)

def MetadataError.message : MetadataError → Text
  | malformed fault document => fault.message document
  | wrongRoot name => "No ApexPage element found (root is <".toList ++ name ++ ">)".toList

def metadataSpace : Text := "http://soap.sforce.com/2006/04/metadata".toList

def metadataRoots : List Text := ["ApexPage".toList, "ApexComponent".toList]

def childNamed? (name : Xml.Name) : List Xml.Node → Option (List Xml.Node)
  | [] => none
  | .element found _ children :: rest =>
    if found == name then some children else childNamed? name rest
  | .text _ :: rest => childNamed? name rest

/-- The trimmed text at the front of an element, if it is not blank. -/
def leadingText? : List Xml.Node → Option Text
  | .text content :: _ => nonEmpty? (Text.trim content)
  | _ => none

/-- The text of a child, which is looked for in the metadata namespace first. -/
def childText? (root : Xml.Element) (name : String) : Option Text :=
  ((childNamed? ⟨some metadataSpace, name.toList⟩ root.children).or
    (childNamed? ⟨none, name.toList⟩ root.children)).bind leadingText?

def Metadata.read (text : Text) : Except MetadataError Metadata :=
  let document := Text.trim text
  match Xml.read document with
  | .error fault => .error (.malformed fault document)
  | .ok root =>
    if !metadataRoots.contains root.name.base then .error (.wrongRoot root.name.base)
    else
      .ok {
        apiVersion := childText? root "apiVersion"
        label := childText? root "label"
        description := childText? root "description"
        availableInTouch := childText? root "availableInTouch" == some "true".toList
        confirmationTokenRequired :=
          childText? root "confirmationTokenRequired" == some "true".toList }

def Metadata.toValue (metadata : Metadata) : Value :=
  .record [("api_version", .ofText? metadata.apiVersion), ("label", .ofText? metadata.label),
    ("description", .ofText? metadata.description),
    ("available_in_touch", .bool metadata.availableInTouch),
    ("confirmation_token_required", .bool metadata.confirmationTokenRequired)]

/-- The first value unless it is missing or empty. -/
def prefer (own other : Option Text) : Option Text :=
  match own.bind nonEmpty? with
  | some text => some text
  | none => other

/-- Fills gaps from metadata; metadata that cannot be read leaves a warning. -/
def applyMetadata (text : Text) (page : Page) : Page :=
  match Metadata.read text with
  | .error error => page.warn ("Page metadata ignored: ".toList ++ error.message)
  | .ok metadata =>
    { page with
      apiVersion := prefer page.apiVersion metadata.apiVersion
      label := prefer page.label metadata.label }

end Visualforce.Page
