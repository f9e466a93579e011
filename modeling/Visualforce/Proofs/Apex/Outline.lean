import Visualforce.Apex.Reader
import Visualforce.Proofs.Markup.PlainName
import Visualforce.Proofs.Pattern.Keyword
import Visualforce.Proofs.Text.Words

/-! # Outlines of classes

An outline says what a class declares: properties, methods and inner classes in any order and to any
depth. It is written as the source of a class, one member on a line. Its names, types and parameters
are plain when they are made of ASCII, hold no word that begins a declaration and cannot be taken
for a modifier.
-/
namespace Visualforce.Apex
open Pattern

/-- What a property and a method have in common. -/
structure Signature where
  visibility : Text
  modifiers : List Text
  type : Text
  name : Text

inductive Member where
  | property (signature : Signature)
  | method (annotations : List Text) (signature : Signature) (parameters : Text)
  | inner (name : Text) (members : List Member)

def modifiersSource (modifiers : List Text) : Text := modifiers.flatMap (· ++ [' '])

def annotationsSource (annotations : List Text) : Text :=
  annotations.flatMap fun name => '@' :: name ++ [' ']

/-- What follows the visibility. -/
def Signature.tail (signature : Signature) : Text :=
  ' ' :: (modifiersSource signature.modifiers ++ (signature.type ++ ' ' :: signature.name))

def Signature.source (signature : Signature) : Text := signature.visibility ++ signature.tail

/-- What follows the name of a property. -/
def accessorsSource : Text := " \x7b get; set; \x7d".toList

/-- What follows the name of a method. -/
def parametersSource (parameters : Text) : Text := '(' :: parameters ++ ") \x7b \x7d".toList

/-- The front of the source of a class. -/
def classHead (name : Text) : Text := "public class ".toList ++ name ++ " \x7b".toList

mutual
def Member.source : Member → Text
  | .property signature => signature.source ++ accessorsSource
  | .method annotations signature parameters =>
    annotationsSource annotations ++ signature.source ++ parametersSource parameters
  | .inner name members => classHead name ++ '\n' :: membersSource members ++ ['\x7d']

/-- Every member stands on a line of its own. -/
def membersSource : List Member → Text
  | [] => []
  | member :: rest => member.source ++ '\n' :: membersSource rest
end

def Signature.property (signature : Signature) : Property where
  name := signature.name
  type := signature.type
  visibility := signature.visibility.map Char.toLower
  modifiers := signature.modifiers
  description := "Property ".toList ++ signature.name ++ " of type ".toList ++ signature.type

def Signature.method (signature : Signature) (annotations : List Text) (parameters : Text) :
    Method where
  name := signature.name
  returnType := signature.type
  visibility := signature.visibility.map Char.toLower
  parameters := parameters
  modifiers := signature.modifiers
  annotations := annotations.map ('@' :: ·)
  description := "Method ".toList ++ signature.name ++ " returning ".toList ++ signature.type

def Member.properties : Member → List Property
  | property signature => [signature.property]
  | _ => []

def Member.methods : Member → List Method
  | method annotations signature parameters => [signature.method annotations parameters]
  | _ => []

mutual
def Member.classes : Member → List Class
  | .property _ => []
  | .method _ _ _ => []
  | .inner name members =>
    [.mk name (members.flatMap Member.properties) (members.flatMap Member.methods)
      (classesOf members)]

def classesOf : List Member → List Class
  | [] => []
  | member :: rest => member.classes ++ classesOf rest
end

def described (name : Text) (members : List Member) : Class :=
  .mk name (members.flatMap Member.properties) (members.flatMap Member.methods) (classesOf members)

def visibilityNames : List String := ["public", "private", "protected", "global"]

def modifierNames : List String :=
  ["static", "final", "override", "virtual", "abstract", "transient", "webservice", "testmethod"]

/-- The text is one of the names in some case. -/
def IsOneOf (names : List String) (word : Text) : Prop :=
  word.map Char.toLower ∈ names.map String.toList

instance (names : List String) (word : Text) : Decidable (IsOneOf names word) :=
  inferInstanceAs (Decidable (_ ∈ _))

/-- None of the names is part of the text, in any case. -/
def IsFreeOf (names : List String) (text : Text) : Prop :=
  ∀ name ∈ names, ¬ name.toList <:+: text.map Char.toLower

instance (names : List String) (text : Text) : Decidable (IsFreeOf names text) :=
  inferInstanceAs (Decidable (∀ _ ∈ _, _))

/-- No word that begins a declaration is part of the text. -/
abbrev IsFree (text : Text) : Prop := IsFreeOf ("class" :: visibilityNames) text

structure IsIdentifier (name : Text) : Prop where
  nonempty : name ≠ []
  ascii : ∀ c ∈ name, Markup.isNamePart c
  free : IsFree name

def isDottedChar (c : Char) : Bool := Markup.isNamePart c || c == '.'

/-- The characters of type arguments and of parameters. -/
def isArgumentChar (c : Char) : Bool := isDottedChar c || c == ',' || c == '<' || c == '>' ||
    c == ' '

/-- A dotted name, behind it perhaps arguments in angle brackets and the mark of an array. -/
inductive HasTypeShape : Text → Prop where
  | mk {name arguments array : Text} (hne : name ≠ []) (hname : ∀ c ∈ name, isDottedChar c)
      (harguments : arguments = [] ∨ ∃ inside, arguments = '<' :: inside ++ ['>'] ∧ ∀ c ∈ inside,
        isArgumentChar c)
      (harray : array = [] ∨ array = "[]".toList) : HasTypeShape (name ++ (arguments ++ array))

structure IsType (type : Text) : Prop where
  shape : HasTypeShape type
  single : ¬ [' ', ' '] <:+: type
  free : IsFree type
  proper : ¬IsOneOf modifierNames type

structure IsParameters (parameters : Text) : Prop where
  chars : ∀ c ∈ parameters, isArgumentChar c
  single : ¬ [' ', ' '] <:+: parameters
  front : parameters.head? ≠ some ' '
  back : parameters.getLast? ≠ some ' '
  free : IsFree parameters

structure Signature.IsPlain (signature : Signature) : Prop where
  visibility : IsOneOf visibilityNames signature.visibility
  modifiers : ∀ modifier ∈ signature.modifiers, IsOneOf modifierNames modifier
  type : IsType signature.type
  name : IsIdentifier signature.name

mutual
def Member.IsPlain : Member → Prop
  | .property signature => signature.IsPlain
  | .method annotations signature parameters =>
    (∀ name ∈ annotations, IsIdentifier name) ∧ signature.IsPlain ∧ IsParameters parameters
  | .inner name members => IsIdentifier name ∧ ArePlain members

def ArePlain : List Member → Prop
  | [] => True
  | member :: rest => member.IsPlain ∧ ArePlain rest
end

end Visualforce.Apex
