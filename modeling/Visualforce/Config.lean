import Visualforce.Data.Value

/-! # Extraction settings

A configuration is a plain value. Changes are made by name and give a new configuration; an unknown
name is refused.
-/
namespace Visualforce

structure Config where
  sizeThreshold : Int
  rootTags : List Text
  opaqueTags : List Text
  customNamespaces : List Text
  allowBooleanAttributes : Bool
  trimValues : Bool
  previewLength : Option Int
  summaryLength : Option Int
  inlineScriptLength : Option Int
deriving DecidableEq

inductive ConfigError where
  | unknownField (name : Text)
  | unsuitableValue (name : Text)
deriving DecidableEq, Repr

def ConfigError.message : ConfigError → Text
  | unknownField name =>
    "ParserConfig.__init__() got an unexpected keyword argument '".toList ++ name ++ ['\'']
  | unsuitableValue name => "unsuitable value for ".toList ++ name

namespace Config

def standard : Config where
  sizeThreshold := 100000
  rootTags := ["apex:page".toList, "apex:component".toList]
  opaqueTags := ["script".toList, "style".toList]
  customNamespaces := ["c".toList]
  allowBooleanAttributes := true
  trimValues := true
  previewLength := some 100
  summaryLength := some 120
  inlineScriptLength := some 200

/-- A threshold that is not positive is no limit. -/
def isOversize (config : Config) (text : Text) : Bool :=
  0 < config.sizeThreshold && config.sizeThreshold < text.length

def limit? : Value → Option (Option Int)
  | .null => some none
  | .int n => some (some n)
  | _ => none

def fieldNames : List Text :=
  ["size_threshold", "root_tags", "opaque_tags", "custom_namespaces", "allow_boolean_attributes",
    "trim_values", "preview_length", "summary_length", "inline_script_length"].map String.toList

/-- Sets one field; none when the value does not suit it. -/
def set? (config : Config) (name : Text) (value : Value) : Option Config :=
  if name == "size_threshold".toList then
    value.int?.map fun n => { config with sizeThreshold := n }
  else if name == "root_tags".toList then
    value.texts?.map fun tags => { config with rootTags := tags }
  else if name == "opaque_tags".toList then
    value.texts?.map fun tags => { config with opaqueTags := tags }
  else if name == "custom_namespaces".toList then
    value.texts?.map fun names => { config with customNamespaces := names }
  else if name == "allow_boolean_attributes".toList then
    value.bool?.map fun b => { config with allowBooleanAttributes := b }
  else if name == "trim_values".toList then
    value.bool?.map fun b => { config with trimValues := b }
  else if name == "preview_length".toList then
    (limit? value).map fun n => { config with previewLength := n }
  else if name == "summary_length".toList then
    (limit? value).map fun n => { config with summaryLength := n }
  else
    (limit? value).map fun n => { config with inlineScriptLength := n }

/-- Makes the changes in order, after all names have been checked. -/
def override (config : Config) (changes : List (Text × Value)) : Except ConfigError Config :=
  match changes.find? (!fieldNames.contains ·.1) with
  | some (name, _) => .error (.unknownField name)
  | none => changes.foldlM (fun config (name, value) =>
      match config.set? name value with
      | some config => .ok config
      | none => .error (.unsuitableValue name)) config

def ofLimit : Option Int → Value
  | none => .null
  | some n => .int n

def toValue (config : Config) : Value :=
  .record [
    ("size_threshold", .int config.sizeThreshold),
    ("root_tags", .ofTexts config.rootTags),
    ("opaque_tags", .ofTexts config.opaqueTags),
    ("custom_namespaces", .ofTexts config.customNamespaces),
    ("allow_boolean_attributes", .bool config.allowBooleanAttributes),
    ("trim_values", .bool config.trimValues),
    ("preview_length", ofLimit config.previewLength),
    ("summary_length", ofLimit config.summaryLength),
    ("inline_script_length", ofLimit config.inlineScriptLength)]

end Config
end Visualforce
